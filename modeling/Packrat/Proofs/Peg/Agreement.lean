import Packrat.Proofs.FirstCycles
import Packrat.Proofs.Peg.Skipping
import Packrat.Proofs.Protocol.Outcomes
import Packrat.Proofs.Protocol.Shapes

/-! # The engine follows the rules of plain expressions

    Where only plain expressions are within reach, a match finds what the rules say.  The protocol is
    the semantics itself: it asks for expressions within reach at positions of the text, it tells
    what the rules find, and every outcome in the memo table is one that the rules find at its key.
    Each form turns what its children tell into the rule of its shape. -/

namespace Packrat

open Relation Matching Engine

/-! ## What preparation checks -/

/-- A check of a list passes only if it passes for each element. -/
theorem forM_ok {f : ExprId → Except Fault Unit} {ids : List ExprId} (h : ids.forM f = .ok ()) :
    ∀ id ∈ ids, f id = .ok () := by
  induction ids with
  | nil =>
      intro id hid
      cases hid
  | cons i rest ih =>
      obtain ⟨⟨⟩, hi, hrest⟩ := ok_of_bind h
      intro id hid
      rcases List.mem_cons.mp hid with rfl | hid
      · exact hi
      · exact ih hrest id hid

/-- It passes if it passes for each element. -/
theorem forM_of_ok {f : ExprId → Except Fault Unit} {ids : List ExprId}
    (h : ∀ id ∈ ids, f id = .ok ()) : ids.forM f = .ok () := by
  induction ids with
  | nil => rfl
  | cons i rest ih =>
      obtain ⟨hi, hrest⟩ := List.forall_mem_cons.mp h
      change (f i >>= fun _ => rest.forM f) = .ok ()
      rw [hi]
      exact ih hrest

namespace Grammar

variable {g g' : Grammar} {n : Nullability} {options : PrepareOptions} {id root : ExprId}

/-- What can be reached from the root, a rule or the whitespace. -/
def InUse (g : Grammar) (id : ExprId) : Prop :=
  ∃ root ∈ g.entryPoints, ReflTransGen g.Child root id

/-- Validation passes only if every node in use does, and the whitespace. -/
theorem validate_ok (h : g.validate n options = .ok ()) :
    (∀ id, g.InUse id → g.validateNode n options id = .ok ()) ∧ g.validateWhitespace = .ok () := by
  rw [validate] at h
  split at h
  · cases h
  · obtain ⟨ids, hreachable, h⟩ := ok_of_bind h
    obtain ⟨⟨⟩, hnodes, h⟩ := ok_of_bind h
    obtain ⟨⟨⟩, hwhitespace, -⟩ := ok_of_bind h
    refine ⟨?_, hwhitespace⟩
    rintro id ⟨root, hroot, hreach⟩
    obtain ⟨events, hwalk, hids⟩ := ok_of_bind hreachable
    cases hids
    have hentered := walk_reaches hwalk hroot (walk_of_reach hreach)
    exact forM_ok hnodes id hentered.1

/-- A grammar without a root is not validated. -/
theorem validate_root (h : g.validate n options = .ok ()) : ∃ root, g.root = some root := by
  cases hroot : g.root with
  | none =>
      rw [validate, hroot] at h
      cases h
  | some root => exact ⟨root, rfl⟩

/-- A node that passed the check is in the grammar. -/
theorem validateNode_inside (h : g.validateNode n options id = .ok ()) : id < g.size := by
  obtain ⟨e, hnode, -⟩ := ok_of_bind h
  exact lt_size_of_shape? (shape?_of_node? (node_ok hnode))

/-- Where repetitions of nullable expressions are refused, none is in use. -/
theorem validateNode_solid (hreject : options.rejectNullableRepetition = true)
    {s : Shape ExprId} {operand : ExprId} (hs : g.shape? id = some s)
    (hrepeats : s = .zeroMore operand ∨ s = .oneMore operand)
    (h : g.validateNode n options id = .ok ()) : n.isNullable operand = false := by
  obtain ⟨e, hnode, h⟩ := ok_of_bind h
  have hshape : e.shape = s := by
    rw [shape?_of_node? (node_ok hnode)] at hs
    exact Option.some.inj hs
  rw [hshape] at h
  -- a nullable operand would have been thrown out, with a description or without
  cases hnullable : n.isNullable operand with
  | false => rfl
  | true =>
      exfalso
      rcases hrepeats with rfl | rfl
      · simp only [hreject, hnullable, Bool.and_self, if_true] at h
        obtain ⟨_, -, hthrow⟩ := ok_of_bind h
        cases hthrow
      · simp only [hreject, hnullable, Bool.and_self, if_true] at h
        obtain ⟨_, -, hthrow⟩ := ok_of_bind h
        cases hthrow

/-- Whitespace that was validated has a fast path. -/
theorem validateWhitespace_ok (h : g.validateWhitespace = .ok ()) {ws : ExprId}
    (hws : g.whitespace = some ws) : g.fastPathCulprit ws = .ok none := by
  rw [validateWhitespace, hws] at h
  obtain ⟨culprit, hculprit, h⟩ := ok_of_bind h
  cases culprit with
  | none => exact hculprit
  | some culprit =>
      obtain ⟨_, -, hthrow⟩ := ok_of_bind h
      cases hthrow

/-- What holds of a prepared grammar that refuses repetitions of nullable expressions. -/
theorem prepare_checks {report : PrepareReport} (h : prepare options g = .ok report g')
    (hreject : options.rejectNullableRepetition = true) :
    ∃ n, g'.nullability = .ok n ∧
      (∀ id s operand, g'.InUse id → g'.shape? id = some s →
        s = .zeroMore operand ∨ s = .oneMore operand → n.isNullable operand = false) ∧
      ∀ ws, g'.whitespace = some ws → g'.fastPathCulprit ws = .ok none := by
  obtain ⟨g₁, n, rfl, hn, hvalid⟩ := prepare_validates h
  obtain ⟨hnodes, hwhitespace⟩ := validate_ok hvalid
  refine ⟨n, hn, ?_, fun ws hws => validateWhitespace_ok hwhitespace hws⟩
  intro id s operand hused hs hrepeats
  exact validateNode_solid (g := g₁) hreject hs hrepeats (hnodes id hused)

end Grammar

/-! ## Forms -/

/-- A part of the grammar that follows the rules: it is closed under children, repeats nothing
    nullable, and the whitespace may be skipped. -/
structure Plain (g : Grammar) (n : Nullability) (plain : ExprId → Prop) : Prop where
  nullability : g.nullability = .ok n
  shape : ∀ id s, plain id → g.shape? id = some s → s.isPlain = true
  children : ∀ id s, plain id → g.shape? id = some s → ∀ child ∈ s.children, plain child
  solid : ∀ id s operand, plain id → g.shape? id = some s →
    s = .zeroMore operand ∨ s = .oneMore operand → n.isNullable operand = false
  whitespace : ∀ ws, g.whitespace = some ws → ∃ within, Skippable g n within ∧ within ws

/-- A part follows the rules if its shapes are plain, and their children are solid and of the part. -/
theorem plain_of_solid {g : Grammar} {n : Nullability} {plain : ExprId → Prop}
    (hn : g.nullability = .ok n)
    (h : ∀ id < g.size, plain id → ∀ s ∈ g.shape? id, s.isPlain = true ∧
      ∀ child ∈ s.children, plain child ∧ n.isNullable child = false)
    (hwhitespace : ∀ ws, g.whitespace = some ws → ∃ within, Skippable g n within ∧ within ws) :
    Plain g n plain := by
  have hshape : ∀ {id s}, plain id → g.shape? id = some s → s.isPlain = true ∧
      ∀ child ∈ s.children, plain child ∧ n.isNullable child = false :=
    fun hid hs => h _ (Grammar.lt_size_of_shape? hs) hid _ hs
  refine ⟨hn, fun id s hid hs => (hshape hid hs).1, ?_, ?_, hwhitespace⟩
  · intro id s hid hs child hchild
    exact ((hshape hid hs).2 child hchild).1
  · intro id s operand hid hs hrepeats
    refine ((hshape hid hs).2 operand ?_).2
    rcases hrepeats with rfl | rfl <;> exact List.mem_singleton_self _

section Items

variable {g : Grammar} {text : Text} {n : Nullability} {plain : ExprId → Prop} {p : Nat}
variable {R : ExprId → Nat → Option Found → Prop} {items : List ExprId} {o : Option Found}

/-- A row of plain items is a sequence of the semantics. -/
theorem Each.peg (hR : ∀ i p o, plain i → R i p o → PegAt g text i p o)
    (hitems : ∀ i ∈ items, plain i) (h : Each R items p o) : Peg g text (.sequence items) p o := by
  induction h with
  | nil => exact .sequence_nil
  | fail rest hfail =>
      obtain ⟨s, hs, hpeg⟩ := hR _ _ _ (hitems _ (List.mem_cons_self ..)) hfail
      exact .sequence_fail hs hpeg
  | next hitem _ ih =>
      obtain ⟨s, hs, hpeg⟩ := hR _ _ _ (hitems _ (List.mem_cons_self ..)) hitem
      exact .sequence_next hs hpeg (ih fun i hi => hitems i (List.mem_cons_of_mem _ hi))

/-- The first of plain alternatives is a choice of the semantics. -/
theorem First.peg (hR : ∀ i p o, plain i → R i p o → PegAt g text i p o)
    (hitems : ∀ i ∈ items, plain i) (h : First R items p o) : Peg g text (.choice items) p o := by
  induction h with
  | nil => exact .choice_nil
  | here rest hitem =>
      obtain ⟨s, hs, hpeg⟩ := hR _ _ _ (hitems _ (List.mem_cons_self ..)) hitem
      exact .choice_here hs hpeg
  | next hitem _ ih =>
      obtain ⟨s, hs, hpeg⟩ := hR _ _ _ (hitems _ (List.mem_cons_self ..)) hitem
      exact .choice_next hs hpeg (ih fun i hi => hitems i (List.mem_cons_of_mem _ hi))

/-- What the rules find for a sequence is what they find for its items. -/
theorem Peg.each (h : Peg g text (.sequence items) p o) : Each (PegAt g text) items p o := by
  induction items generalizing p o with
  | nil =>
      cases h
      exact .nil p
  | cons item rest ih =>
      cases h with
      | sequence_fail hs hpeg => exact .fail rest ⟨_, hs, hpeg⟩
      | sequence_next hs hpeg hrest => exact .next ⟨_, hs, hpeg⟩ (ih hrest)

/-- A repetition of something solid, at least as often as asked for. -/
theorem Many.peg (hn : g.nullability = .ok n) {e : ExprId}
    (hR : ∀ p o, R e p o → PegAt g text e p o) (hsolid : n.isNullable e = false)
    (hp : p ≤ text.length) {count : Nat} {f : Found} (h : Many R e p count f) :
    Peg g text (.zeroMore e) p (some f) ∧
      Peg g text (.oneMore e) p (if count < 1 then none else some f) := by
  induction h with
  | fail hfail =>
      obtain ⟨s, hs, hpeg⟩ := hR _ _ hfail
      exact ⟨.zeroMore_end hs hpeg, .oneMore_fail hs hpeg⟩
  | stay hfound hstay =>
      have hnullable := ((hR _ _ hfound).bounds hn hp).nullable hstay
      rw [hsolid] at hnullable
      cases hnullable
  | next hfound _ _ ih =>
      have hstop := ((hR _ _ hfound).bounds hn hp).stop
      obtain ⟨s, hs, hpeg⟩ := hR _ _ hfound
      obtain ⟨hrest, -⟩ := ih hstop
      exact ⟨.zeroMore_next hs hpeg hrest, .oneMore hs hpeg hrest⟩

end Items

section Dispatch

variable {π : Protocol} {n : Nullability} {plain : ExprId → Prop}
variable {ask : Scope → ExprId → Nat → Prop} {call call' : Caller} {m : Machine} {id : ExprId}

/-- What a plain shape finds is what the rules say, if that is so of its children. -/
theorem Plain.finds {g : Grammar} {text : Text} {R : Scope → ExprId → Nat → Option Found → Prop}
    {c : Scope} {p : Nat} {s : Shape ExprId} {o : Option Found} (hplain : Plain g n plain)
    (hR : ∀ c i p o, plain i → R c i p o → PegAt g text i p o) (hid : plain id)
    (hs : g.shape? id = some s) (hp : p ≤ text.length) (h : s.Finds R g text c p o) :
    Peg g text s p o := by
  have hchildren := hplain.children id s hid hs
  have hoperand : ∀ operand, s.children = [operand] → plain operand :=
    fun operand honly => hchildren operand (honly ▸ List.mem_singleton_self operand)
  cases s with
  | literal l =>
      obtain rfl := h
      exact peg_literal g text l p
  | any =>
      obtain rfl := h
      exact peg_any g text p
  | range lo hi =>
      obtain rfl := h
      exact peg_range g text lo hi p
  | set members =>
      obtain rfl := h
      exact peg_set g text members p
  | sequence items => exact Each.peg (hR c) hchildren h
  | choice items => exact First.peg (hR c) hchildren h
  | optional operand =>
      obtain ⟨o', htold, rfl⟩ := h
      obtain ⟨t, ht, hpeg⟩ := hR _ _ _ _ (hoperand operand rfl) htold
      exact .optional ht hpeg
  | zeroMore operand =>
      obtain ⟨count, f, hmany, rfl⟩ := h
      exact (hmany.peg hplain.nullability (fun p o => hR c _ p o (hoperand operand rfl))
        (hplain.solid id _ operand hid hs (Or.inl rfl)) hp).1
  | oneMore operand =>
      obtain ⟨count, f, hmany, rfl⟩ := h
      exact (hmany.peg hplain.nullability (fun p o => hR c _ p o (hoperand operand rfl))
        (hplain.solid id _ operand hid hs (Or.inr rfl)) hp).2
  | lookahead operand =>
      obtain ⟨o', htold, rfl⟩ := h
      obtain ⟨t, ht, hpeg⟩ := hR _ _ _ _ (hoperand operand rfl) htold
      exact .lookahead ht hpeg
  | not operand =>
      obtain ⟨o', htold, rfl⟩ := h
      obtain ⟨t, ht, hpeg⟩ := hR _ _ _ _ (hoperand operand rfl) htold
      cases o' with
      | none => exact .not ht hpeg
      | some f => exact .not_fail ht hpeg
  | token operand =>
      rcases h with ⟨htold, rfl⟩ | ⟨f, htold, hskips⟩
      · obtain ⟨t, ht, hpeg⟩ := hR _ _ _ _ (hoperand operand rfl) htold
        exact .token_fail ht hpeg
      · have hstop := ((hR _ _ _ _ (hoperand operand rfl) htold).bounds hplain.nullability hp).stop
        obtain ⟨t, ht, hpeg⟩ := hR _ _ _ _ (hoperand operand rfl) htold
        rw [Combinators.Skips] at hskips
        cases hws : g.whitespace with
        | none =>
            rw [hws] at hskips
            obtain rfl : o = some f := hskips
            exact .token_bare hws ht hpeg
        | some ws =>
            rw [hws] at hskips
            obtain ⟨stop, hskip, rfl⟩ := hskips
            obtain ⟨within, hskippable, hwithin⟩ := hplain.whitespace ws hws
            obtain ⟨o', ⟨u, hu, hpeg'⟩, rfl⟩ := skip_peg hplain.nullability hskippable hwithin
              hstop hskip
            exact .token hws ht hpeg hu hpeg'
  | capture operand mode =>
      obtain ⟨o', htold, rfl⟩ := h
      obtain ⟨t, ht, hpeg⟩ := hR _ _ _ _ (hoperand operand rfl) htold
      exact .capture mode ht hpeg
  | minPrecedence operand floor =>
      obtain ⟨t, ht, hpeg⟩ := hR _ _ _ _ (hoperand operand rfl) h
      exact .minPrecedence floor ht hpeg
  | leftRecursive | cluster | reference | custom => cases h

/-- A plain shape tells what its expression is to tell, if plain expressions tell what the rules
    find. -/
theorem dispatch_peg (setting : Setting) (hfaults : π.faults)
    (hgrammar : setting.grammar = π.grammar) (hplain : Plain π.grammar n plain)
    (hcall : π.Serves ask call call')
    (htell : ∀ {c i p o}, plain i → (π.tell c i p o ↔ PegAt π.grammar setting.text i p o))
    (hask : ∀ {c i p}, plain i → p ≤ setting.text.length → ask c i p) {s : Shape ExprId}
    (hid : plain id) (hs : π.grammar.shape? id = some s) (hready : Ready π.grammar m)
    (hkeeps : π.Keeps m) (hp : m.state.stop ≤ setting.text.length) :
    Twins m (fun _ => π.faults) (dispatch setting call id s) (dispatch setting call' id s)
      (π.Leaves (π.tell m.state.scope id m.state.stop) m) := by
  have hchildren := hplain.children id s hid hs
  have hasks : π.Asks ask π.grammar setting.text m.state.scope m.state.stop s := by
    refine Protocol.asks_of_forall hfaults hp (fun i p hi _ hle => hask (hchildren i hi) hle)
      ?_ ?_ ?_
    · rintro e rfl
      exact hask (hchildren e (List.mem_singleton_self e)) hp
    · rintro e floor rfl
      exact hask (hchildren e (List.mem_singleton_self e)) hp
    · intro i p f hi _ hle hf
      have hwithin := ((htell (hchildren i hi)).mp hf).bounds hplain.nullability hle
      exact ⟨hwithin.forward, hwithin.stop⟩
  refine (dispatch_told setting hcall hready hkeeps hp id (hplain.shape id s hid hs)
    (hgrammar ▸ hasks)).imp fun b m' hleaves => hleaves.imp fun o hfinds => ?_
  rw [hgrammar] at hfinds
  exact (htell hid).mpr ⟨s, hs, hplain.finds (fun _ _ _ _ hi => (htell hi).mp) hid hs hp hfinds⟩

end Dispatch

/-! ## Parses -/

/-- Matches tell what the rules find, and the memo table holds nothing else. -/
def Protocol.peg (g : Grammar) (text : Text) : Protocol where
  grammar := g
  faults := True
  entry key o := PegAt g text key.expr key.position (o.map Changes.found)
  recorded _ := True
  tell _ id p o := PegAt g text id p o

section Parses

variable {g g' : Grammar} {n : Nullability} {plain : ExprId → Prop} {text : Text} {root : ExprId}
variable {options : PrepareOptions} {report : PrepareReport} {c : Config} {source : String}
variable {r : ParseResult}

/-- An invocation of a plain node finds what the semantics does, under every config and at every
    nesting. -/
theorem invoke_peg (hplain : Plain g n plain) (c : Config) (nesting : Nat) :
    (Protocol.peg g text).Serves (fun _ id p => plain id ∧ p ≤ text.length)
      (invoke ⟨g, text, c⟩ nesting) (invoke ⟨g, text, c⟩ nesting) := by
  refine Protocol.serves_of_dispatch ⟨g, text, c⟩ rfl trivial
    (fun id m _ => Protocol.admits_of_told rfl trivial (fun _ => trivial) fun _ => Iff.rfl) ?_ nesting
  rintro call hcall id expr m hnode hready hkeeps ⟨hid, hp⟩
  exact dispatch_peg ⟨g, text, c⟩ trivial rfl hplain hcall (fun _ => Iff.rfl)
    (fun hi hle => ⟨hi, hle⟩) hid (Grammar.shape?_of_node? hnode) hready hkeeps hp

/-- No boundary and no custom expression can be reached. -/
def Grammar.PlainFrom (g : Grammar) (root : ExprId) : Prop :=
  ∀ id s, ReflTransGen g.Child root id → g.shape? id = some s → s.isPlain = true

/-- What preparation accepts is plain as far as the semantics asks, provided that it rejects
    repetitions that stall. -/
theorem plain_of_prepare (hprepare : Grammar.prepare options g = .ok report g')
    (hreject : options.rejectNullableRepetition = true) (hroot : g'.root = some root)
    (hplain : g'.PlainFrom root) : ∃ n, Plain g' n (ReflTransGen g'.Child root) := by
  obtain ⟨n, hn, hsolid, hculprit⟩ := Grammar.prepare_checks hprepare hreject
  have hentry : root ∈ g'.entryPoints := by simp [Grammar.entryPoints, hroot]
  refine ⟨n, hn, fun id s => hplain id s, ?_, ?_, ?_⟩
  · intro id s hreach hs child hchild
    exact hreach.tail ⟨s, hs, hchild⟩
  · intro id s operand hreach
    exact hsolid id s operand ⟨root, hentry, hreach⟩
  · intro ws hws
    have hentry' : ws ∈ g'.entryPoints := by simp [Grammar.entryPoints, hws]
    refine ⟨_, Grammar.skippable_of_culprit (hculprit ws hws) ?_, .refl⟩
    intro id s operand hreach
    exact hsolid id s operand ⟨ws, hentry', hreach⟩

/-- A parse with a prepared grammar that repeats nothing nullable, and from whose root no boundary
    and no custom expression can be reached, gives what the rules find for the root at the start of
    the text, whatever it memoizes: it succeeds if and only if they find something, and then it
    ends there, with the nodes that they find in the tree. -/
theorem parseWith_peg (hprepare : Grammar.prepare options g = .ok report g')
    (hreject : options.rejectNullableRepetition = true) (hroot : g'.root = some root)
    (hplain : g'.PlainFrom root) (h : (parseWith g' c source).outcome = .ok r) :
    ∃ o, (∀ o', PegAt g' (.ofString source) root 0 o' ↔ o' = o) ∧
      r.succeeded = o.isSome ∧ r.stop = (o.map Found.stop).getD 0 ∧
      r.matched = decide (o.map Found.stop = some (Text.ofString source).length) ∧
      r.tree = .root 0 r.stop ((o.map Found.nodes).getD []) := by
  obtain ⟨n, hplain⟩ := plain_of_prepare hprepare hreject hroot hplain
  have hserves : (Protocol.peg g' (.ofString source)).Serves
      (fun _ id p => ReflTransGen g'.Child root id ∧ p ≤ (Text.ofString source).length) _ _ :=
    invoke_peg hplain c c.maxDepth
  have hkeeps : (Protocol.peg g' (.ofString source)).Keeps (.initial c) :=
    ⟨Or.inl trivial, fun key o hheld => absurd hheld (Table.not_holds_empty key o), trivial⟩
  obtain ⟨o, htell, hshows⟩ := hserves.shows rfl hkeeps ⟨.refl, Nat.zero_le _⟩ hroot h
  exact ⟨o, fun o' => ⟨fun h' => h'.unique htell, fun heq => heq ▸ htell⟩, hshows.succeeded,
    hshows.stop, hshows.matched, hshows.tree⟩

end Parses

/-- Numbers and lists of them in parentheses, with blanks after every token; no list begins with an
    empty one. -/
def nested : Grammar :=
  { nodes := #[{ shape := .choice [1, 9], flags := .rule }, .ofShape (.capture 2 (.node "list")),
      .ofShape (.sequence [3, 5, 7, 8]), .ofShape (.token 4), .ofShape (.literal "("),
      .ofShape (.not 6), .ofShape (.literal "()"), .ofShape (.zeroMore 0),
      .ofShape (.token 12), .ofShape (.token 10), .ofShape (.capture 11 (.text "number")),
      .ofShape (.oneMore 13), .ofShape (.literal ")"), .ofShape (.range '0' '9'),
      .ofShape (.zeroMore 15), .ofShape (.set [' '])]
    root := some 0
    whitespace := some 14 }

/-- Preparation leaves the nested grammar as it is. -/
theorem prepare_nested :
    Grammar.prepare {} nested = .ok ⟨0, [], 3⟩ { nested with prepared := true } := by
  cbv

/-- Where every node is plain so is what the root reaches. -/
theorem plainFrom_of_mem {g : Grammar} {root : ExprId}
    (h : ∀ expr ∈ g.nodes, expr.shape.isPlain = true) : g.PlainFrom root := by
  intro id s _ hs
  obtain ⟨expr, hnode, rfl⟩ := Option.map_eq_some_iff.mp hs
  exact h expr (Array.mem_of_getElem? hnode)

/-- On nested parentheses with blanks, a memoized parse gives the one outcome of the semantics. -/
theorem parseWith_peg_nested :
    ∃ report g r, Grammar.prepare {} nested = .ok report g ∧ g.root = some 0 ∧ g.PlainFrom 0 ∧
      (parseWith g { memoization := .all } "( 1 (2)) ").outcome = .ok r ∧ r.matched = true ∧
      ∃ f, PegAt g (.ofString "( 1 (2)) ") 0 0 (some f) ∧ r.tree = .root 0 f.stop f.nodes := by
  have hplain : Grammar.PlainFrom { nested with prepared := true } 0 :=
    plainFrom_of_mem (by simp [nested, Expr.ofShape, Shape.isPlain])
  obtain ⟨r, h, hmatched⟩ := exists_of_toOption (f := ParseResult.matched) (b := true)
    (x := (parseWith { nested with prepared := true } { memoization := .all } "( 1 (2)) ").outcome)
    (by decide +kernel)
  obtain ⟨o, hpeg, -, hstop, hdecides, htree⟩ := parseWith_peg prepare_nested rfl rfl hplain h
  rw [hmatched] at hdecides
  obtain ⟨f, rfl, -⟩ := Option.map_eq_some_iff.mp (of_decide_eq_true hdecides.symm)
  refine ⟨_, _, r, prepare_nested, rfl, hplain, h, hmatched, f, (hpeg _).mpr rfl, ?_⟩
  rw [htree, hstop]
  rfl

end Packrat
