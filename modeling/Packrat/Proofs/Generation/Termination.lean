import Packrat.Proofs.Generation.Emission

/-! # Generation terminates

    Past the greatest depth a shape asks only for expressions of less height than its own
    (`Generator.asked_descends`).  So the nesting that an expression needs is bounded: by what is
    left of the depth and the number of expressions, and past the depth by its height
    (`Generator.need`).  With any nesting from there on generation is the same, and it does not
    break off.

    * **`Generator.generate_terminates`** — heights are those of smallest derivations, and where all
      expressions have one, whatever is drawn a text is generated. -/

namespace Packrat

open Relation

namespace Generator

variable {σ : Type} {gen : Generator} {s : Shape ExprId} {id i : ExprId} {n depth nesting : Nat}

/-- Past the greatest depth, what a shape asks for has less height. -/
theorem asked_descends (h : gen.grammar.heights = .ok gen.heights)
    (hs : gen.grammar.shape? id = some s) (hheight : heightAt gen.heights id = some n)
    (hi : i ∈ gen.asked true s) : ∃ m, heightAt gen.heights i = some m ∧ m < n := by
  have hwithin : HeightWithin (heightAt gen.heights id) n := hheight ▸ heightWithin_some.mpr le_rfl
  obtain ⟨m, rfl, picked, hpicks, hpicked⟩ := Grammar.exists_picks_within h hs hwithin
  have hless : HeightWithin (heightAt gen.heights i) m := by
    rw [asked_deep] at hi
    cases hrule : gen.grammar.heightRule s with
    | deepest all =>
        rw [hrule] at hi hpicks
        obtain rfl : picked = all := hpicks
        exact hpicked i hi
    | shallowest options =>
        rw [hrule] at hi hpicks
        obtain ⟨hmem, hleast⟩ := shallowest_some (Option.mem_toList.mp hi)
        rcases hpicks with ⟨rfl, -⟩ | ⟨j, hj, rfl⟩
        · cases hmem
        · exact hleast j hj m (hpicked j (List.mem_singleton_self j))
  obtain ⟨k, hk, hle⟩ := hless
  exact ⟨k, hk, Nat.lt_succ_of_le hle⟩

/-- What a shape asks for is derived in turn. -/
theorem derives_asked {deep : Bool} (hs : gen.grammar.shape? id = some s)
    (hi : i ∈ gen.asked deep s) : gen.grammar.Derives id i := by
  cases deep with
  | true =>
      rw [asked_deep] at hi
      cases hrule : gen.grammar.heightRule s with
      | deepest all =>
          rw [hrule] at hi
          exact ⟨s, all, hs, Grammar.expands_of_picks (hrule ▸ rfl), hi⟩
      | shallowest options =>
          rw [hrule] at hi
          have hmem := (shallowest_some (Option.mem_toList.mp hi)).1
          have hpicks : (gen.grammar.heightRule s).Picks [i] := hrule ▸ .inr ⟨i, hmem, rfl⟩
          exact ⟨s, [i], hs, Grammar.expands_of_picks hpicks, List.mem_singleton_self i⟩
  | false =>
      have hself : i ∈ [i] := List.mem_singleton_self i
      cases s with
      | literal | any | range | set | lookahead | not | custom => cases hi
      | sequence items => exact ⟨_, items, hs, rfl, hi⟩
      | choice items => exact ⟨_, [i], hs, .inr ⟨i, hi, rfl⟩, hself⟩
      | cluster groups => exact ⟨_, [i], hs, .inr ⟨i, hi, rfl⟩, hself⟩
      | optional e =>
          obtain rfl := List.mem_singleton.mp hi
          exact ⟨_, [i], hs, .inr rfl, hself⟩
      | zeroMore e =>
          obtain rfl := List.mem_singleton.mp hi
          exact ⟨_, [i], hs, ⟨1, rfl⟩, hself⟩
      | oneMore e =>
          obtain rfl := List.mem_singleton.mp hi
          exact ⟨_, [i], hs, ⟨0, rfl⟩, hself⟩
      | token e | capture e | leftRecursive e | minPrecedence e => exact ⟨_, [e], hs, rfl, hi⟩
      | reference name => exact ⟨_, _, hs, rfl, hi⟩

/-- A bound on the nesting of what is emitted for an expression at a depth. -/
def need (gen : Generator) (depth : Nat) (id : ExprId) : Nat :=
  gen.config.maxDepth.toNat + 1 - depth +
    if gen.config.maxDepth.toNat < depth then (heightAt gen.heights id).getD 1 else gen.grammar.size

theorem need_pos (h : gen.grammar.heights = .ok gen.heights) (depth : Nat) (id : ExprId) :
    0 < gen.need depth id := by
  rw [need]
  split
  · cases hheight : heightAt gen.heights id with
    | none => simp
    | some n =>
        have hpos := Grammar.heightAt_pos h hheight
        rw [Option.getD_some]
        omega
  · omega

/-- What a shape asks for needs less. -/
theorem need_asked (h : gen.grammar.heights = .ok gen.heights)
    (hfinite : ∀ id < gen.grammar.size, heightAt gen.heights id ≠ none)
    (hs : gen.grammar.shape? id = some s)
    (hi : i ∈ gen.asked (decide (gen.config.maxDepth.toNat < depth)) s) :
    gen.need (depth + 1) i < gen.need depth id := by
  have hinside := Grammar.lt_size_of_shape? hs
  by_cases hdeep : gen.config.maxDepth.toNat < depth
  · obtain ⟨n, hn⟩ := Option.ne_none_iff_exists'.mp (hfinite id hinside)
    obtain ⟨m, hm, hless⟩ := asked_descends h hs hn (by simpa [hdeep] using hi)
    rw [need, need, if_pos hdeep, if_pos (Nat.lt_succ_of_lt hdeep), hn, hm]
    simp only [Option.getD_some]
    omega
  · have hheight : (heightAt gen.heights i).getD 1 ≤ gen.grammar.size := by
      cases hm : heightAt gen.heights i with
      | none => exact Nat.succ_le_of_lt (Nat.zero_lt_of_lt hinside)
      | some m => exact Grammar.heights_le_size h hm
    rw [need, need, if_neg hdeep]
    split <;> omega

variable [WordSource σ]

/-- With all the nesting that it needs, an expression emits the same as with more. -/
theorem emit_nesting (h : gen.grammar.heights = .ok gen.heights)
    (hfinite : ∀ id < gen.grammar.size, heightAt gen.heights id ≠ none) {nesting' : Nat}
    (hneed : gen.need depth id ≤ nesting) (hneed' : gen.need depth id ≤ nesting') :
    (gen.emit nesting depth id : Drawing σ (List Char)) = gen.emit nesting' depth id := by
  have hpos := need_pos h depth id
  induction nesting generalizing nesting' depth id with
  | zero => omega
  | succ nesting ih =>
      obtain ⟨nesting', rfl⟩ : ∃ k, nesting' = k + 1 := ⟨nesting' - 1, by omega⟩
      rw [emit, emit]
      cases hs : gen.grammar.shape? id with
      | none => rfl
      | some s =>
          refine emitShape_congr fun i hi => ?_
          have hless := need_asked h hfinite hs hi
          exact ih (by omega) (by omega) (need_pos h (depth + 1) i)

/-- Why there is no text: an id is dangling, or what is derived draws from too many repetitions. -/
inductive Breaks (gen : Generator) (root : ExprId) : Fault → Prop
  | dangling {i : ExprId} (h : gen.grammar.Dangling i) : Breaks gen root (.crash (.noSuchExpr i))
  | overflow {id : ExprId} {s : Shape ExprId} (hreach : ReflTransGen gen.grammar.Derives root id)
      (hs : gen.grammar.shape? id = some s) (h : gen.Overflows s) :
      Breaks gen root (.crash .countOverflow)

/-- With all the nesting that it needs, what is derived from the root breaks off for no other
    reason. -/
theorem emit_breaks (h : gen.grammar.heights = .ok gen.heights)
    (hfinite : ∀ id < gen.grammar.size, heightAt gen.heights id ≠ none) {root : ExprId}
    (hroot : gen.grammar.root = some root) (hreach : ReflTransGen gen.grammar.Derives root id)
    (hneed : gen.need depth id ≤ nesting) :
    (gen.emit nesting depth id : Drawing σ (List Char)).Always (fun _ => True)
      (gen.Breaks root) := by
  have hpos := need_pos h depth id
  induction nesting generalizing depth id with
  | zero => omega
  | succ nesting ih =>
      rw [emit]
      cases hs : gen.grammar.shape? id with
      | none =>
          have hmentioned : gen.grammar.Mentions id := by
            rcases hreach.cases_tail with rfl | ⟨before, -, hlast⟩
            · exact .inl hroot
            · exact hlast.mentions
          refine Drawing.always_throw (.dangling ⟨not_lt.mp fun hinside => ?_, hmentioned⟩)
          obtain ⟨e, he⟩ := Grammar.node?_of_lt_size hinside
          rw [Grammar.shape?, he] at hs
          cases hs
      | some s =>
          refine (emitShape_always (P := fun _ _ => True) (fun i hi => ?_)
            fun hover => .overflow hreach hs hover).imp fun _ _ => trivial
          have hless := need_asked h hfinite hs hi
          exact ih (hreach.tail (derives_asked hs hi)) (by omega) (need_pos h (depth + 1) i)

theorem need_root (gen : Generator) (id : ExprId) :
    gen.need 0 id = gen.config.maxDepth.toNat + gen.grammar.size + 1 := by
  rw [need, if_neg (Nat.not_lt_zero _)]
  omega

/-- Generation breaks off only for the reasons that the root has. -/
theorem generateChars_breaks (h : gen.grammar.heights = .ok gen.heights)
    (hfinite : ∀ id < gen.grammar.size, heightAt gen.heights id ≠ none) :
    (gen.generateChars : Drawing σ (List Char)).Always (fun _ => True) fun e =>
      ∃ root, gen.grammar.root = some root ∧ gen.Breaks root e := by
  rw [generateChars]
  cases hroot : gen.grammar.root with
  | none => exact Drawing.always_pure trivial
  | some root =>
      have hneed : gen.need 0 root ≤ gen.config.maxDepth.toNat + gen.grammar.size + 2 := by
        rw [need_root]
        omega
      exact (emit_breaks h hfinite hroot .refl hneed).imp_fault fun e he => ⟨root, rfl, he⟩

/-- **GENERATION TERMINATES**: unless an id is dangling, every expression gets the height of its
    smallest derivation, which does not exceed the number of expressions, and none exactly if it has
    no derivation.  If all expressions have a height, then past the greatest depth what is emitted
    depends on expressions of less height alone, so that more nesting than the depth and the number
    of expressions allow changes nothing; and whatever the settings are and whatever is drawn,
    generation comes to its end.  It ends with a text, unless it crashes: where an id is dangling,
    and where the settings allow as many repetitions as the greatest word counts and something that
    may be repeated no times is derived, since the number to draw from is then no word. -/
theorem generate_terminates (g : Grammar) (config : GeneratorConfig) :
    (∃ i, g.Dangling i ∧ make g config = .error (.crash (.noSuchExpr i))) ∨
      ∃ heights, make g config = .ok { grammar := g, config, heights } ∧
        heights.size = g.size ∧
        (∀ id n, heightAt heights id = some n ↔
          IsLeast (Set.range (Grammar.Derivation.height : g.Derivation id → Nat)) n) ∧
        (∀ id, heightAt heights id = none ↔ IsEmpty (g.Derivation id)) ∧
        (∀ id n, heightAt heights id = some n → n ≤ g.size) ∧
        ((∀ id < g.size, heightAt heights id ≠ none) →
          let gen : Generator := { grammar := g, config, heights }
          ∀ (σ : Type) [WordSource σ],
            (∀ (id : ExprId) (s : Shape ExprId) (n : Nat), g.shape? id = some s →
              heightAt heights id = some n → ∀ emit emit' : ExprId → Drawing σ (List Char),
                (∀ i m, heightAt heights i = some m → m < n → emit i = emit' i) →
                gen.emitShape emit true s = gen.emitShape emit' true s) ∧
            (∀ id nesting, config.maxDepth.toNat + g.size + 1 ≤ nesting →
              (gen.emit nesting 0 id : Drawing σ (List Char)) =
                gen.emit (config.maxDepth.toNat + g.size + 1) 0 id) ∧
            ∀ source : σ, (∃ text source', gen.generate source = .ok (text, source')) ∨
              (∃ i, g.Dangling i ∧ gen.generate source = .error (.crash (.noSuchExpr i))) ∨
              (config.maxRepetitions.toNat + 1 = UInt64.size ∧
                (∃ root id operand, g.root = some root ∧ ReflTransGen g.Derives root id ∧
                  g.shape? id = some (.zeroMore operand)) ∧
                gen.generate source = .error (.crash .countOverflow))) := by
  rcases g.heights_ok_or with ⟨heights, h⟩ | ⟨i, hi, h⟩
  · refine .inr ⟨heights, by rw [make, h]; rfl, (Grammar.heights_spec h).1,
      fun id n => Grammar.heights_isLeast h, fun id => Grammar.heights_none h,
      fun id n => Grammar.heights_le_size h, fun hfinite => ?_⟩
    intro gen σ _
    have hgen : gen.grammar.heights = .ok gen.heights := h
    have hneed : ∀ id, gen.need 0 id = config.maxDepth.toNat + g.size + 1 := gen.need_root
    refine ⟨fun id s n hs hheight emit emit' hsame => emitShape_congr fun i hi => ?_,
      fun id nesting hle => emit_nesting hgen hfinite ((hneed id).trans_le hle) (hneed id).le,
      fun source => ?_⟩
    · obtain ⟨m, hm, hless⟩ := asked_descends hgen hs hheight hi
      exact hsame i m hm hless
    · have hrun : (gen.generate : Drawing σ String).Always (fun _ => True) fun e =>
          ∃ root, g.root = some root ∧ gen.Breaks root e :=
        ofList_always (generateChars_breaks hgen hfinite)
      obtain ⟨-, hfault⟩ := hrun source
      cases hgenerate : gen.generate source with
      | ok drawn => exact .inl ⟨drawn.1, drawn.2, rfl⟩
      | error e =>
          obtain ⟨root, hroot, hbreaks⟩ := hfault e hgenerate
          cases hbreaks with
          | dangling hi => exact .inr (.inl ⟨_, hi, rfl⟩)
          | overflow hreach hs hover =>
              obtain ⟨⟨operand, rfl⟩, hmost⟩ := hover
              exact .inr (.inr ⟨hmost, ⟨root, _, operand, hroot, hreach, hs⟩, rfl⟩)
  · exact .inl ⟨i, hi, by rw [make, h]; rfl⟩

/-- A letter in any number of parentheses. -/
def nested : Grammar :=
  { nodes := #[.ofShape (.choice [1, 4]), .ofShape (.sequence [2, 0, 3]), .ofShape (.literal "("),
      .ofShape (.literal ")"), .ofShape (.literal "x")]
    root := some 0 }

theorem nested_derivation (id : ExprId) (hid : id < nested.size) :
    Nonempty (nested.Derivation id) := by
  refine Grammar.nonempty_derivation (fun id => [1, 2, 0, 0, 0].getD id 0) ?_ hid
  intro id hid
  replace hid : id < 5 := hid
  interval_cases id
  · exact ⟨_, [4], rfl, .inr ⟨4, by simp, rfl⟩, by decide⟩
  · exact ⟨_, [2, 0, 3], rfl, rfl, by decide⟩
  · exact ⟨_, [], rfl, rfl, by simp⟩
  · exact ⟨_, [], rfl, rfl, by simp⟩
  · exact ⟨_, [], rfl, rfl, by simp⟩

theorem generate_terminates_nested :
    ∃ gen text source, make nested { maxDepth := 0 } = .ok gen ∧
      gen.generate Xorshift.unseeded = .ok (text, source) := by
  have hinside : ∀ i, ¬nested.Dangling i := fun i =>
    Grammar.not_dangling (by decide) (by decide) (by decide)
  rcases generate_terminates nested { maxDepth := 0 } with
    ⟨i, hi, -⟩ | ⟨heights, hmake, -, -, hnone, -, hterminates⟩
  · exact (hinside i hi).elim
  · have hfinite : ∀ id < nested.size, heightAt heights id ≠ none := fun id hid h =>
      not_isEmpty_iff.mpr (nested_derivation id hid) ((hnone id).mp h)
    obtain ⟨-, -, hgenerate⟩ := hterminates hfinite Xorshift
    rcases hgenerate Xorshift.unseeded with ⟨text, source, hrun⟩ | ⟨i, hi, -⟩ | ⟨hmost, -⟩
    · exact ⟨_, text, source, hmake, hrun⟩
    · exact (hinside i hi).elim
    · exact absurd hmost (by decide)

/-- Any number of letters, or none. -/
def letters : Grammar :=
  { nodes := #[.ofShape (.zeroMore 1), .ofShape .any]
    root := some 0 }

example (heights : Array (Option Nat)) :
    generate ⟨letters, { maxRepetitions := 0xffffffffffffffff }, heights⟩ Xorshift.unseeded =
      .error (.crash .countOverflow) :=
  rfl

end Generator

end Packrat
