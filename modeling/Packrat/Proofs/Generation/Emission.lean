import Packrat.Proofs.Generation.Heights
import Packrat.Sample.Generator

/-! # What an expression emits

    A drawing program is described by what it may answer WHATEVER is drawn (`Drawing.Always`).  A
    shape emits the texts of some expressions that a derivation derives in turn, one after another,
    and adds characters of its own (`Grammar.Emits`, `Grammar.Renders`); it asks for no other
    expression than those in `Generator.asked`, which past the greatest depth are what its height
    rule allows.  A shape itself breaks off in one case only, where the number of repetitions to
    draw from is more than a word can count (`Generator.Overflows`).

    * **`Generator.emitShape_congr`** — a shape emits what it does because of what it asks for.
    * **`Generator.emitShape_always`** — what a shape emits, and what it fails with.
    * **`Generator.emit_text`** — what holds of texts put together from texts holds of what is
      emitted. -/

namespace Packrat

variable {σ α β : Type}

/-! ## Programs that draw -/

namespace Drawing

/-- Whatever is drawn, the program answers as the first condition says or fails as the second
    says. -/
def Always (x : Drawing σ α) (P : α → Prop) (E : Fault → Prop) : Prop :=
  ∀ source, (∀ a source', x source = .ok (a, source') → P a) ∧ ∀ e, x source = .error e → E e

variable {x : Drawing σ α} {f : α → Drawing σ β} {P P' : α → Prop} {Q : β → Prop} {E : Fault → Prop}

theorem Always.imp (h : x.Always P E) (hP : ∀ a, P a → P' a) : x.Always P' E :=
  fun source => ⟨fun a source' hrun => hP a ((h source).1 a source' hrun), (h source).2⟩

theorem Always.imp_fault {E' : Fault → Prop} (h : x.Always P E) (hE : ∀ e, E e → E' e) :
    x.Always P E' :=
  fun source => ⟨(h source).1, fun e hrun => hE e ((h source).2 e hrun)⟩

theorem always_pure {a : α} (h : P a) : (pure a : Drawing σ α).Always P E := by
  refine fun source => ⟨fun a' source' hrun => ?_, fun e hrun => ?_⟩
  · cases hrun
    exact h
  · cases hrun

theorem always_throw {e : Fault} (h : E e) : (throw e : Drawing σ α).Always P E := by
  refine fun source => ⟨fun a source' hrun => ?_, fun e' hrun => ?_⟩
  · cases hrun
  · cases hrun
    exact h

/-- A draw cannot fail. -/
theorem always_draw {draw : σ → α × σ} (h : ∀ source, P (draw source).1) :
    Always (fun source => .ok (draw source)) P E := by
  refine fun source => ⟨fun a source' hrun => ?_, fun e hrun => ?_⟩
  · have hdrawn : draw source = (a, source') := Except.ok.inj hrun
    have hP := h source
    rwa [hdrawn] at hP
  · cases hrun

/-- What a bind always does, its second part always does after the first. -/
theorem always_bind (h : x.Always (fun a => (f a).Always Q E) E) : (x >>= f).Always Q E := by
  intro source
  obtain ⟨hanswer, hfault⟩ := h source
  have hrun : (x >>= f) source = x source >>= fun drawn => f drawn.1 drawn.2 := rfl
  rw [hrun]
  cases hx : x source with
  | error e =>
      refine ⟨fun b source' hok => ?_, fun e' herror => ?_⟩
      · cases hok
      · cases herror
        exact hfault e hx
  | ok drawn =>
      obtain ⟨a, source'⟩ := drawn
      exact hanswer a source' hx source'

/-- A program that cannot fail answers. -/
theorem Always.exists_ok (h : x.Always P fun _ => False) (source : σ) :
    ∃ a source', x source = .ok (a, source') ∧ P a := by
  cases hx : x source with
  | error e => exact ((h source).2 e hx).elim
  | ok drawn =>
      obtain ⟨a, source'⟩ := drawn
      exact ⟨a, source', rfl, (h source).1 a source' hx⟩

end Drawing

/-! ## Shapes -/

namespace Grammar

variable {g : Grammar}

/-- What is emitted for a shape in turn: what a derivation derives, or nothing where a group of a
    cluster has no alternatives. -/
def Emits (g : Grammar) (s : Shape ExprId) (ids : List ExprId) : Prop :=
  g.Expands s ids ∨
    ids = [] ∧ ∃ groups, s = .cluster groups ∧ ∃ group ∈ groups, group.alternatives = []

/-- The text of a shape, given the text of what is emitted for it in turn. -/
def Renders (g : Grammar) (s : Shape ExprId) (inner chars : List Char) : Prop :=
  match s with
  | .literal text => chars = text.toList
  | .any => chars = ['x']
  | .range lo hi => ∃ c, chars = [c] ∧ (c = lo ∨ lo ≤ c ∧ c ≤ hi)
  | .set members => members = [] ∧ chars = [] ∨ ∃ c ∈ members, chars = [c]
  | .token _ => chars = inner ∨ g.whitespace.isSome ∧ chars = inner ++ [' ']
  | _ => chars = inner

end Grammar

namespace Generator

variable {gen : Generator} {s : Shape ExprId} {ids : List ExprId} {i : ExprId} {deep : Bool}
  {emit emit' : ExprId → Drawing σ (List Char)}

/-- What a rule leaves to be emitted: all that it takes the greatest height of, or the first of
    least height. -/
def forced (gen : Generator) : HeightRule → List ExprId
  | .deepest ids => ids
  | .shallowest ids => (gen.shallowest ids).toList

/-- The expressions that may be emitted for a shape. -/
def asked (gen : Generator) (deep : Bool) (s : Shape ExprId) : List ExprId :=
  if deep then gen.forced (gen.grammar.heightRule s)
  else
    match s with
    | .lookahead _ | .not _ | .custom _ _ => []
    | .reference name => (gen.grammar.rule? name).toList
    | s => s.children

/-- The number of repetitions that the shape draws from is one more than the greatest word. -/
def Overflows (gen : Generator) (s : Shape ExprId) : Prop :=
  (∃ operand, s = .zeroMore operand) ∧ gen.config.maxRepetitions.toNat + 1 = UInt64.size

/-- Out of depth a node is asked for by the rule of heights. -/
theorem asked_deep : gen.asked true s = gen.forced (gen.grammar.heightRule s) :=
  rfl

/-! ### The shallowest -/

/-- Of alternatives there is always a shallowest. -/
theorem shallowest_eq_none : gen.shallowest ids = none ↔ ids = [] := by
  cases ids <;> simp [shallowest]

/-- The shallowest of some candidates is one of them, and none has less height. -/
theorem shallowest_some (h : gen.shallowest ids = some i) :
    i ∈ ids ∧ ∀ j ∈ ids, ∀ n,
      HeightWithin (heightAt gen.heights j) n → HeightWithin (heightAt gen.heights i) n := by
  cases ids with
  | nil => cases h
  | cons first rest =>
      cases h
      induction rest generalizing first with
      | nil => simp
      | cons next rest ih =>
          rw [List.foldl_cons]
          cases hless : heightLess (heightAt gen.heights next) (heightAt gen.heights first) with
          | true =>
              obtain ⟨hmem, hleast⟩ := ih next
              refine ⟨List.mem_cons_of_mem _ hmem, List.forall_mem_cons.mpr ⟨?_, hleast⟩⟩
              exact fun n hn => hleast next (List.mem_cons_self ..) n
                (heightWithin_of_less hless hn)
          | false =>
              obtain ⟨hmem, hleast⟩ := ih first
              have hnext := heightLess_eq_false.mp hless
              refine ⟨List.cons_subset_cons _ (List.subset_cons_self ..) hmem, ?_⟩
              obtain ⟨hhead, htail⟩ := List.forall_mem_cons.mp hleast
              refine List.forall_mem_cons.mpr ⟨hhead, List.forall_mem_cons.mpr ⟨?_, htail⟩⟩
              exact fun n hn => hhead n (hnext n hn)

/-! ### Dependence on what is asked for -/

/-- Only the emissions of the listed nodes matter. -/
theorem emitAll_congr (h : ∀ i ∈ ids, emit i = emit' i) : emitAll emit ids = emitAll emit' ids := by
  induction ids with
  | nil => rfl
  | cons id rest ih =>
      obtain ⟨hhead, htail⟩ := List.forall_mem_cons.mp h
      rw [emitAll, emitAll, hhead, ih htail]

theorem emitPicked_congr {pick : Option ExprId} (h : ∀ i ∈ pick.toList, emit i = emit' i) :
    emitPicked emit pick = emitPicked emit' pick := by
  cases pick with
  | none => rfl
  | some i => exact h i (List.mem_singleton_self i)

variable [WordSource σ]

/-- What is emitted for a shape depends on the expressions that it asks for alone. -/
theorem emitShape_congr (h : ∀ i ∈ gen.asked deep s, emit i = emit' i) :
    gen.emitShape emit deep s = gen.emitShape emit' deep s := by
  have hitem : ∀ (items : List ExprId) (index : Nat), ∀ i ∈ items[index]?.toList, i ∈ items :=
    fun items index i hi => List.mem_of_getElem? (Option.mem_toList.mp hi)
  cases s with
  | literal | any | range | set | lookahead | not | custom => rfl
  | sequence items =>
      refine emitAll_congr fun i hi => h i ?_
      cases deep <;> exact hi
  | choice items =>
      cases deep with
      | true => exact emitPicked_congr h
      | false =>
          refine congrArg (Bind.bind (below items.length)) (funext fun index => ?_)
          exact emitPicked_congr fun i hi => h i (hitem items index i hi)
  | optional e =>
      cases deep with
      | true => rfl
      | false => simp only [emitShape, h e (List.mem_singleton_self e)]
  | zeroMore e =>
      cases deep with
      | true => rfl
      | false => simp only [emitShape, h e (List.mem_singleton_self e)]
  | oneMore e | token e | capture e | leftRecursive e | minPrecedence e =>
      have he : emit e = emit' e := h e (by cases deep <;> exact List.mem_singleton_self e)
      simp only [emitShape, he]
  | cluster groups =>
      cases deep with
      | true => exact emitPicked_congr h
      | false =>
          refine congrArg (Bind.bind (below groups.length)) (funext fun index => ?_)
          cases hgroup : groups[index]? with
          | none => rfl
          | some group =>
              refine congrArg (Bind.bind (below group.alternatives.length)) (funext fun index => ?_)
              refine emitPicked_congr fun i hi => h i (List.mem_flatMap.mpr ⟨group, ?_, ?_⟩)
              · exact List.mem_of_getElem? hgroup
              · exact hitem group.alternatives index i hi
  | reference name =>
      refine emitPicked_congr fun i hi => h i ?_
      cases deep <;> exact hi

/-! ### Texts and faults -/

section Specification

open Drawing

variable {P : ExprId → List Char → Prop} {E : Fault → Prop}

/-- A draw below a bound is below it, unless the bound leaves nothing to draw. -/
theorem always_below (bound : Nat) :
    (below bound : Drawing σ Nat).Always (fun index => bound ≠ 0 → index < bound) E := by
  refine always_draw fun source hbound => ?_
  simp only [Draw.below, hbound, if_false]
  exact Nat.mod_lt _ (Nat.pos_of_ne_zero hbound)

omit [WordSource σ] in
/-- A row of nodes emits their texts one after the other. -/
theorem emitAll_always (h : ∀ i ∈ ids, (emit i).Always (P i) E) :
    (emitAll emit ids).Always
      (fun chars => ∃ texts, List.Forall₂ P ids texts ∧ texts.flatten = chars) E := by
  induction ids with
  | nil => exact always_pure ⟨[], .nil, rfl⟩
  | cons id rest ih =>
      obtain ⟨hhead, htail⟩ := List.forall_mem_cons.mp h
      refine always_bind (hhead.imp fun text htext => always_bind ((ih htail).imp ?_))
      rintro _ ⟨texts, htexts, rfl⟩
      exact always_pure ⟨text :: texts, .cons htext htexts, rfl⟩

omit [WordSource σ] in
/-- A repetition emits as many texts of its operand as it was told. -/
theorem emitTimes_always (h : (emit i).Always (P i) E) (n : Nat) :
    (emitTimes (emit i) n).Always
      (fun chars => ∃ texts, List.Forall₂ P (List.replicate n i) texts ∧ texts.flatten = chars)
      E := by
  induction n with
  | zero => exact always_pure ⟨[], .nil, rfl⟩
  | succ n ih =>
      refine always_bind (h.imp fun text htext => always_bind (ih.imp ?_))
      rintro _ ⟨texts, htexts, rfl⟩
      exact always_pure ⟨text :: texts, .cons htext htexts, rfl⟩

omit [WordSource σ] in
/-- A choice emits what it picked, or nothing if there is nothing to pick. -/
theorem emitPicked_always {pick : Option ExprId} (h : ∀ i ∈ pick.toList, (emit i).Always (P i) E) :
    (emitPicked emit pick).Always
      (fun chars => ∃ texts, List.Forall₂ P pick.toList texts ∧ texts.flatten = chars) E := by
  cases pick with
  | none => exact always_pure ⟨[], .nil, rfl⟩
  | some i =>
      refine (h i (List.mem_singleton_self i)).imp fun text htext => ?_
      exact ⟨[text], .cons htext .nil, by simp⟩

/-- A text put together from texts of what is emitted in turn. -/
def PutTogether (gen : Generator) (P : ExprId → List Char → Prop) (s : Shape ExprId)
    (chars : List Char) : Prop :=
  ∃ ids texts, gen.grammar.Emits s ids ∧ List.Forall₂ P ids texts ∧
    gen.grammar.Renders s texts.flatten chars

omit [WordSource σ] in
/-- A count is followed by the next one, unless that is no word. -/
theorem always_countOneMore {count : Nat}
    (h : UInt64.size ≤ count + 1 → E (.crash .countOverflow)) :
    (countOneMore count : Drawing σ Nat).Always (fun _ => True) E := by
  rw [countOneMore]
  split
  · exact always_pure trivial
  · rename_i hlarge
    exact always_throw (h (Nat.le_of_not_lt hlarge))

/-- Repetitions are emitted one after another, unless there are too many to draw from. -/
theorem emitRepetition_always (h : (emit i).Always (P i) E) (deep : Bool) (least : Nat)
    (hoverflow : UInt64.size ≤ gen.config.maxRepetitions.toNat - least + 1 →
      E (.crash .countOverflow)) :
    (gen.emitRepetition (emit i) deep least).Always
      (fun chars => ∃ more texts, List.Forall₂ P (List.replicate (least + more) i) texts ∧
        texts.flatten = chars) E := by
  have htimes : ∀ more, (emitTimes (emit i) (least + more)).Always
      (fun chars => ∃ more texts, List.Forall₂ P (List.replicate (least + more) i) texts ∧
        texts.flatten = chars) E := fun more =>
    (emitTimes_always h (least + more)).imp fun chars htexts => ⟨more, htexts⟩
  cases deep with
  | true => exact always_bind (always_pure (htimes 0))
  | false =>
      refine always_bind ((always_countOneMore hoverflow).imp fun bound _ => ?_)
      exact always_bind ((always_below bound).imp fun more _ => htimes more)

/-- A drawn place of a list is empty only if the list is. -/
theorem eq_nil_of_drawn {l : List α} {index : Nat} (h : l.length ≠ 0 → index < l.length)
    (hnone : l[index]? = none) : l = [] := by
  have hlength := List.getElem?_eq_none_iff.mp hnone
  exact List.length_eq_zero_iff.mp (by_contra fun hne => absurd (h hne) hlength.not_gt)

/-- A character counted from the start of a range lies in the range. -/
theorem pickInRange_mem {lo hi : Char} {offset : Nat} (h : offset < hi.toNat - lo.toNat + 1) :
    pickInRange lo offset = lo ∨ lo ≤ pickInRange lo offset ∧ pickInRange lo offset ≤ hi := by
  rw [pickInRange]
  split
  · rename_i hvalid
    have hpicked : (Char.ofNat (lo.toNat + offset)).toNat = lo.toNat + offset := by
      rw [Char.toNat_ofNat, if_pos hvalid]
    by_cases hempty : offset = 0
    · exact .inl (Char.ext (UInt32.toNat_inj.mp (by rw [← Char.toNat, hpicked, hempty]; rfl)))
    · refine .inr ⟨?_, ?_⟩ <;>
        · rw [Char.le_def, UInt32.le_iff_toNat_le, ← Char.toNat, ← Char.toNat, hpicked]
          omega
  · exact .inl rfl

theorem oneOf_toList {pick : Option ExprId} (hnone : pick = none → ids = [])
    (hsome : ∀ i, pick = some i → i ∈ ids) : OneOf ids pick.toList := by
  cases pick with
  | none => exact .inl ⟨hnone rfl, rfl⟩
  | some i => exact .inr ⟨i, hsome i rfl, rfl⟩

theorem oneOf_getElem? {index : Nat} (h : ids.length ≠ 0 → index < ids.length) :
    OneOf ids ids[index]?.toList := by
  exact oneOf_toList (eq_nil_of_drawn h) fun i hi => List.mem_of_getElem? hi

/-- The shallowest alternative is one of them. -/
theorem oneOf_shallowest (ids : List ExprId) : OneOf ids (gen.shallowest ids).toList :=
  oneOf_toList shallowest_eq_none.mp fun _ hi => (shallowest_some hi).1

/-- A drawn alternative of a drawn group is one of the cluster, unless the group has none. -/
theorem emits_cluster {groups : List (Group ExprId)} {group : Group ExprId} {index : Nat}
    (hgroup : group ∈ groups)
    (h : group.alternatives.length ≠ 0 → index < group.alternatives.length) :
    gen.grammar.Emits (.cluster groups) group.alternatives[index]?.toList := by
  rcases oneOf_getElem? h with ⟨hnone, hids⟩ | ⟨i, hi, hids⟩
  · exact .inr ⟨hids, groups, rfl, group, hgroup, hnone⟩
  · exact .inl (.inr ⟨i, List.mem_flatMap.mpr ⟨group, hgroup, hi⟩, hids⟩)

/-- Whatever is drawn, a shape emits a text put together from texts of what it asks for, and fails
    as what it asks for may fail, or because a count overflows. -/
theorem emitShape_always (h : ∀ i ∈ gen.asked deep s, (emit i).Always (P i) E)
    (hoverflow : gen.Overflows s → E (.crash .countOverflow)) :
    (gen.emitShape emit deep s).Always (gen.PutTogether P s) E := by
  -- a text of some expressions emitted in turn, to which nothing is added
  have hplain : ∀ {ids chars}, gen.grammar.Emits s ids →
      (∀ inner, gen.grammar.Renders s inner inner) →
      (∃ texts, List.Forall₂ P ids texts ∧ texts.flatten = chars) →
      gen.PutTogether P s chars := by
    rintro ids _ hemits hrenders ⟨texts, htexts, rfl⟩
    exact ⟨ids, texts, hemits, htexts, hrenders _⟩
  have hitem : ∀ (items : List ExprId) (index : Nat), ∀ i ∈ items[index]?.toList, i ∈ items :=
    fun items index i hi => List.mem_of_getElem? (Option.mem_toList.mp hi)
  cases s with
  | literal text => exact always_pure ⟨[], [], .inl rfl, .nil, rfl⟩
  | any => exact always_pure ⟨[], [], .inl rfl, .nil, rfl⟩
  | range lo hi =>
      refine always_bind ((always_below _).imp fun offset hoffset => always_pure ?_)
      exact ⟨[], [], .inl rfl, .nil, _, rfl, pickInRange_mem (hoffset (Nat.succ_ne_zero _))⟩
  | set members =>
      refine always_bind ((always_below _).imp fun index hindex => always_pure ?_)
      refine ⟨[], [], .inl rfl, .nil, ?_⟩
      cases hmember : members[index]? with
      | none => exact .inl ⟨eq_nil_of_drawn hindex hmember, rfl⟩
      | some c => exact .inr ⟨c, List.mem_of_getElem? hmember, rfl⟩
  | lookahead | not | custom => exact always_pure ⟨[], [], .inl rfl, .nil, rfl⟩
  | sequence items =>
      have hitems : ∀ i ∈ items, (emit i).Always (P i) E :=
        fun i hi => h i (by cases deep <;> exact hi)
      exact (emitAll_always hitems).imp fun chars => hplain (.inl rfl) fun _ => rfl
  | choice items =>
      cases deep with
      | true =>
          refine (emitPicked_always h).imp fun chars => hplain (.inl ?_) fun _ => rfl
          exact oneOf_shallowest items
      | false =>
          refine always_bind ((always_below _).imp fun index hindex => ?_)
          refine (emitPicked_always fun i hi => h i (hitem items index i hi)).imp fun chars =>
            hplain (.inl ?_) fun _ => rfl
          exact oneOf_getElem? hindex
  | optional e =>
      have hleft : gen.PutTogether P (.optional e) [] := ⟨[], [], .inl (.inl rfl), .nil, rfl⟩
      cases deep with
      | true => exact always_pure hleft
      | false =>
          refine always_bind (always_draw (P := fun _ => True) (fun _ => trivial) |>.imp ?_)
          rintro (_ | _) -
          · exact always_pure hleft
          · refine (h e (List.mem_singleton_self e)).imp fun text htext => ?_
            exact hplain (.inl (.inr rfl)) (fun _ => rfl) ⟨[text], .cons htext .nil, by simp⟩
  | zeroMore e =>
      cases deep with
      | true => exact always_pure ⟨[], [], .inl ⟨0, rfl⟩, .nil, rfl⟩
      | false =>
          have hlarge : UInt64.size ≤ gen.config.maxRepetitions.toNat - 0 + 1 →
              E (.crash .countOverflow) := fun hsize =>
            hoverflow ⟨⟨e, rfl⟩, Nat.le_antisymm gen.config.maxRepetitions.toNat_lt_size hsize⟩
          refine (emitRepetition_always (h e (List.mem_singleton_self e)) false 0 hlarge).imp ?_
          rintro chars ⟨more, htexts⟩
          exact hplain (.inl ⟨more, by rw [Nat.zero_add]⟩) (fun _ => rfl) htexts
  | oneMore e =>
      have he := h e (by cases deep <;> exact List.mem_singleton_self e)
      have hsmall : gen.config.maxRepetitions.toNat - 1 + 1 < UInt64.size := by
        have hword := gen.config.maxRepetitions.toNat_lt_size
        have hone : 1 < UInt64.size := by decide
        omega
      refine (emitRepetition_always he deep 1 fun hlarge => absurd hlarge hsmall.not_ge).imp ?_
      rintro chars ⟨more, htexts⟩
      exact hplain (.inl ⟨more, by rw [Nat.add_comm]⟩) (fun _ => rfl) htexts
  | token e =>
      have he := h e (by cases deep <;> exact List.mem_singleton_self e)
      refine always_bind (he.imp fun text htext => ?_)
      have hwith : ∀ chars, gen.grammar.Renders (.token e) text chars →
          gen.PutTogether P (.token e) chars := fun chars hrenders =>
        ⟨[e], [text], .inl rfl, .cons htext .nil, by simpa using hrenders⟩
      split
      · rename_i hwhitespace
        refine always_bind ((always_below 2).imp fun coin _ => ?_)
        split
        · exact always_pure (hwith _ (.inr ⟨hwhitespace, rfl⟩))
        · exact always_pure (hwith _ (.inl rfl))
      · exact always_pure (hwith _ (.inl rfl))
  | capture e | leftRecursive e | minPrecedence e =>
      refine (h e (by cases deep <;> exact List.mem_singleton_self e)).imp fun text htext => ?_
      exact hplain (.inl rfl) (fun _ => rfl) ⟨[text], .cons htext .nil, by simp⟩
  | cluster groups =>
      cases deep with
      | true =>
          refine (emitPicked_always h).imp fun chars => hplain (.inl ?_) fun _ => rfl
          exact oneOf_shallowest _
      | false =>
          refine always_bind ((always_below _).imp fun index hindex => ?_)
          cases hgroup : groups[index]? with
          | none =>
              obtain rfl := eq_nil_of_drawn hindex hgroup
              exact always_pure ⟨[], [], .inl (.inl ⟨rfl, rfl⟩), .nil, rfl⟩
          | some group =>
              have hmem : group ∈ groups := List.mem_of_getElem? hgroup
              refine always_bind ((always_below _).imp fun index hindex => ?_)
              refine (emitPicked_always fun i hi => h i ?_).imp fun chars =>
                hplain (emits_cluster hmem hindex) fun _ => rfl
              exact List.mem_flatMap.mpr ⟨group, hmem, hitem group.alternatives index i hi⟩
  | reference name =>
      have htarget : ∀ i ∈ (gen.grammar.rule? name).toList, (emit i).Always (P i) E :=
        fun i hi => h i (by cases deep <;> exact hi)
      exact (emitPicked_always htarget).imp fun chars => hplain (.inl rfl) fun _ => rfl

/-- What holds of an expression and every text put together from texts of which it holds, holds of
    what is emitted. -/
theorem emit_text (hclosed : ∀ id s chars, gen.grammar.shape? id = some s →
      gen.PutTogether P s chars → P id chars) (nesting depth : Nat) (id : ExprId) :
    (gen.emit nesting depth id : Drawing σ (List Char)).Always (P id) fun _ => True := by
  induction nesting generalizing depth id with
  | zero => exact always_throw trivial
  | succ nesting ih =>
      rw [emit]
      cases hs : gen.grammar.shape? id with
      | none => exact always_throw trivial
      | some s =>
          refine (emitShape_always (fun i _ => ih (depth + 1) i) fun _ => trivial).imp ?_
          exact fun chars => hclosed id s chars hs

omit [WordSource σ] in
theorem ofList_always {x : Drawing σ (List Char)} {Q : List Char → Prop} (h : x.Always Q E) :
    (String.ofList <$> x).Always (fun text => Q text.toList) E := by
  have hmap : (String.ofList <$> x) = x >>= fun chars => pure (String.ofList chars) :=
    (bind_pure_comp String.ofList x).symm
  rw [hmap]
  exact always_bind (h.imp fun chars hchars => always_pure (by simpa using hchars))

end Specification

end Generator

end Packrat
