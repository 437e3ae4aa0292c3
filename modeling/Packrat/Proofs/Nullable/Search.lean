import Mathlib
import Packrat.Proofs.Nullable.Derivations
import Packrat.Proofs.WalkOnce

/-! # The search for nullable expressions

    The analysis evaluates expressions as the walk leaves them, and again when something they wait
    for is decided.  Neither order matters.  A stage of the analysis allows any of its moves next
    (`Stage.Step`): the walk leaves some expression, some decided expression has its waiters told,
    or some expression that was told is evaluated again.

    An expression that waits for a child has not heard what the child is, and what it has heard is
    what is decided (`Search.heard`).  The invariant (`Stage.Sound`) is that an expression left
    open could not be decided from what it had HEARD, and that it waits for every child that is
    open.  Each move keeps it.  Once nobody is left to tell, all has been heard: no open expression
    can be decided, and the expressions found nullable are those with a derivation
    (`Stage.Sound.derivable_iff`).

    The analysis itself is one order of these moves (`foldl_leave_run`). -/

namespace Packrat

open Relation

namespace Nullability.Search

variable {g : Grammar} {s : Search} {id x c : ExprId} {children rest : List ExprId} {b : Bool}

/-! ## The operations, read back -/

/-- Settling a node gives it its value, and no other one changes. -/
theorem value?_settle (hid : id < s.values.size) :
    (s.settle id b).value? x = if x = id then some b else s.value? x := by
  rw [value?, settle, Array.getD_eq_getD_getElem?, Array.getElem?_setIfInBounds]
  by_cases h : x = id
  · rw [if_pos h.symm, if_pos h, if_pos (h ▸ hid)]
    rfl
  · rw [if_neg (Ne.symm h), if_neg h, value?, Array.getD_eq_getD_getElem?]

@[simp] theorem waiting_settle : (s.settle id b).waiting x = s.waiting x := rfl

@[simp] theorem untold_settle : (s.settle id b).untold = id :: s.untold := rfl

@[simp] theorem value?_release : (s.release id rest).value? x = s.value? x := rfl

/-- Releasing a node empties its waiting list. -/
theorem waiting_release (hid : id < s.waiters.size) :
    (s.release id rest).waiting x = if x = id then [] else s.waiting x := by
  rw [waiting, release, Array.getD_eq_getD_getElem?, Array.getElem?_setIfInBounds]
  by_cases h : x = id
  · rw [if_pos h.symm, if_pos h, if_pos (h ▸ hid)]
    rfl
  · rw [if_neg (Ne.symm h), if_neg h, waiting, Array.getD_eq_getD_getElem?]

/-- Awaiting a child adds a waiter and does nothing else. -/
theorem await_frame (id : ExprId) (s : Search) (c : ExprId) :
    (await id s c).values = s.values ∧ (await id s c).untold = s.untold ∧
    (await id s c).waiters.size = s.waiters.size := by
  rw [await]
  split
  · exact ⟨rfl, rfl, rfl⟩
  · exact ⟨rfl, rfl, Array.size_setIfInBounds⟩

/-- Only a child that is not settled yet is waited for. -/
theorem mem_waiting_await (hc : c < s.waiters.size) {y : ExprId} :
    y ∈ (await id s c).waiting x ↔ y ∈ s.waiting x ∨ y = id ∧ x = c ∧ s.value? c = none := by
  rw [await]
  split
  · rename_i hskip
    refine ⟨Or.inl, fun h => ?_⟩
    rcases h with h | ⟨rfl, rfl, hopen⟩
    · exact h
    · rw [hopen] at hskip
      simpa using hskip
  · rename_i hawait
    simp only [Bool.or_eq_true, not_or, Bool.not_eq_true, Option.isSome_eq_false_iff,
      Option.isNone_iff_eq_none] at hawait
    rw [waiting, Array.getD_eq_getD_getElem?, Array.getElem?_setIfInBounds]
    by_cases h : c = x
    · subst h
      simp [hc, hawait.1]
    · rw [if_neg h, ← Array.getD_eq_getD_getElem?, ← waiting]
      simp [Ne.symm h]

/-- Nor does awaiting several children. -/
theorem foldl_await_frame (id : ExprId) (children : List ExprId) (s : Search) :
    (children.foldl (await id) s).values = s.values ∧
    (children.foldl (await id) s).untold = s.untold ∧
    (children.foldl (await id) s).waiters.size = s.waiters.size := by
  induction children generalizing s with
  | nil => exact ⟨rfl, rfl, rfl⟩
  | cons c rest ih =>
      obtain ⟨hvalues, huntold, hsize⟩ := await_frame id s c
      obtain ⟨hvalues', huntold', hsize'⟩ := ih (await id s c)
      exact ⟨hvalues'.trans hvalues, huntold'.trans huntold, hsize'.trans hsize⟩

@[simp] theorem value?_foldl_await : (children.foldl (await id) s).value? x = s.value? x := by
  rw [value?, (foldl_await_frame id children s).1, value?]

/-- Of several children, each one that is not settled yet is waited for. -/
theorem mem_waiting_foldl_await (hchildren : ∀ c ∈ children, c < s.waiters.size) {y : ExprId} :
    y ∈ (children.foldl (await id) s).waiting x ↔
      y ∈ s.waiting x ∨ y = id ∧ x ∈ children ∧ s.value? x = none := by
  induction children generalizing s with
  | nil => simp
  | cons c rest ih =>
      obtain ⟨hc, hrest⟩ := List.forall_mem_cons.mp hchildren
      have hvalue : (await id s c).value? x = s.value? x := by
        rw [value?, (await_frame id s c).1, value?]
      rw [List.foldl_cons, ih fun c' hc' => (hrest c' hc').trans_eq (await_frame id s c).2.2.symm,
        mem_waiting_await hc, hvalue, List.mem_cons]
      grind

/-- An expression that is considered is left alone, is decided by its rule, or starts to wait. -/
theorem consider_cases (g : Grammar) (s : Search) (id : ExprId) :
    ((s.value? id).isSome ∨ g.shape? id = none) ∧ s.consider g id = s ∨
      ∃ shape, g.shape? id = some shape ∧ s.value? id = none ∧
        ((∃ b, shape.strategy.decide? s.value? = some b ∧ s.consider g id = s.settle id b) ∨
          shape.strategy.decide? s.value? = none ∧
            s.consider g id = shape.children.foldl (await id) s) := by
  rw [consider]
  split
  · rename_i hsome
    exact Or.inl ⟨Or.inl hsome, rfl⟩
  · rename_i hopen
    have hopen : s.value? id = none := by simpa using hopen
    cases hshape : g.shape? id with
    | none => exact Or.inl ⟨Or.inr rfl, rfl⟩
    | some shape =>
        refine Or.inr ⟨shape, rfl, hopen, ?_⟩
        dsimp only
        split
        · rename_i b hdecide
          exact Or.inl ⟨b, hdecide, rfl⟩
        · rename_i hdecide
          exact Or.inr ⟨hdecide, rfl⟩

/-! ## The invariant of a search -/

/-- What `id` has heard: it has not been told what it waits for. -/
def heard (s : Search) (id : ExprId) : ExprId → Option Bool := fun c =>
  if id ∈ s.waiting c then none else s.value? c

/-- From what `id` has heard it cannot be decided, and it waits for every child that is open. -/
def Waits (g : Grammar) (s : Search) (id : ExprId) : Prop :=
  ∀ shape, g.shape? id = some shape →
    shape.strategy.decide? (s.heard id) = none ∧
      ∀ c ∈ shape.children, s.value? c = none → id ∈ s.waiting c

/-- What is decided is right, and nobody waits for what has been told. -/
structure Sound (g : Grammar) (s : Search) : Prop where
  values_size : s.values.size = g.size
  waiters_size : s.waiters.size = g.size
  derivable : ∀ x, s.value? x = some true → g.Derivable x
  underivable : ∀ x, s.value? x = some false → ¬ g.Derivable x
  decided : ∀ x ∈ s.untold, x < g.size ∧ (s.value? x).isSome
  awaited : ∀ c, (s.value? c).isSome → c ∉ s.untold → s.waiting c = []

/-- What is heard of a child depends on whether the child is waited for. -/
theorem decide?_heard_congr {s s' : Search} {shape : Shape ExprId}
    (h : ∀ c ∈ shape.children, s'.heard id c = s.heard id c)
    (hnone : shape.strategy.decide? (s.heard id) = none) :
    shape.strategy.decide? (s'.heard id) = none := by
  cases hdecide : shape.strategy.decide? (s'.heard id) with
  | none => rfl
  | some b =>
      have hdecided := Shape.decide?_mono (fun c hc b hb => (h c hc).symm.trans hb) hdecide
      cases hnone.symm.trans hdecided

/-- A search starts with nothing settled and nobody waiting. -/
theorem sound_initial (g : Grammar) : Sound g (.initial g) := by
  have hvalue : ∀ x, (initial g).value? x = none := by
    intro x
    rw [value?, initial, Array.getD_eq_getD_getElem?, Array.getElem?_replicate]
    split <;> rfl
  refine ⟨Array.size_replicate, Array.size_replicate, ?_, ?_, ?_, ?_⟩
  · exact fun x hx => by cases (hvalue x).symm.trans hx
  · exact fun x hx => by cases (hvalue x).symm.trans hx
  · exact fun x hx => by cases hx
  · intro c hc
    rw [hvalue] at hc
    cases hc

/-- What an expression waits for when something is settled it waited for before. -/
theorem Waits.settle (h : s.Waits g x) (hs : Sound g s) (hid : id < g.size)
    (hopen : s.value? id = none) : (s.settle id b).Waits g x := by
  have hid : id < s.values.size := hs.values_size.symm ▸ hid
  intro shape hshape
  obtain ⟨hnone, hwaits⟩ := h shape hshape
  refine ⟨decide?_heard_congr (fun c hc => ?_) hnone, fun c hc hvalue => ?_⟩
  · rw [heard, heard, waiting_settle, value?_settle hid]
    by_cases h : c = id
    · subst h
      rw [if_pos (hwaits c hc hopen), if_pos (hwaits c hc hopen)]
    · rw [if_neg h]
  · rw [value?_settle hid] at hvalue
    split at hvalue
    · cases hvalue
    · exact hwaits c hc hvalue

/-- What the values of the children decide is right if they are. -/
theorem Sound.settle (hs : Sound g s) {shape : Shape ExprId} (hshape : g.shape? id = some shape)
    (hdecide : shape.strategy.decide? s.value? = some b) : Sound g (s.settle id b) := by
  have hrule := Grammar.strategy?_of_shape? hshape
  have hid := Grammar.lt_size_of_shape? hshape
  have hvalue : ∀ {x}, (s.settle id b).value? x = if x = id then some b else s.value? x :=
    value?_settle (hs.values_size.symm ▸ hid)
  refine ⟨Array.size_setIfInBounds.trans hs.values_size, hs.waiters_size, ?_, ?_, ?_, ?_⟩
  · intro x hx
    rw [hvalue] at hx
    split at hx
    · rename_i h
      cases hx
      exact h ▸ Grammar.derivable_of_decide? hrule hs.derivable hdecide
    · exact hs.derivable x hx
  · intro x hx
    rw [hvalue] at hx
    split at hx
    · rename_i h
      cases hx
      exact h ▸ Grammar.not_derivable_of_decide? hrule hs.underivable hdecide
    · exact hs.underivable x hx
  · intro x hx
    rw [hvalue]
    rcases List.mem_cons.mp hx with rfl | hx
    · exact ⟨hid, by rw [if_pos rfl]; rfl⟩
    · refine ⟨(hs.decided x hx).1, ?_⟩
      split
      · rfl
      · exact (hs.decided x hx).2
  · intro c hc htold
    rw [untold_settle, List.mem_cons, not_or] at htold
    rw [hvalue, if_neg htold.1] at hc
    exact hs.awaited c hc htold.2

/-- A node that waits where it should does so when others start to. -/
theorem Waits.foldl_await (h : s.Waits g x) (hx : x ≠ id)
    (hchildren : ∀ c ∈ children, c < s.waiters.size) :
    (children.foldl (await id) s).Waits g x := by
  have hmem : ∀ c, x ∈ (children.foldl (await id) s).waiting c ↔ x ∈ s.waiting c := by
    intro c
    rw [mem_waiting_foldl_await hchildren]
    exact or_iff_left fun h => hx h.1
  intro shape hshape
  obtain ⟨hnone, hwaits⟩ := h shape hshape
  refine ⟨decide?_heard_congr (fun c _ => ?_) hnone, fun c hc hvalue => ?_⟩
  · simp only [heard, hmem, value?_foldl_await]
  · rw [value?_foldl_await] at hvalue
    exact (hmem c).mpr (hwaits c hc hvalue)

/-- An expression that cannot be decided waits for its children. -/
theorem waits_foldl_await {shape : Shape ExprId} (hshape : g.shape? id = some shape)
    (hchildren : ∀ c ∈ shape.children, c < s.waiters.size)
    (hnone : shape.strategy.decide? s.value? = none) :
    (shape.children.foldl (await id) s).Waits g id := by
  intro shape' hshape'
  cases hshape.symm.trans hshape'
  refine ⟨?_, fun c hc hvalue => ?_⟩
  · cases hdecide : shape.strategy.decide? ((shape.children.foldl (await id) s).heard id) with
    | none => rfl
    | some b =>
        -- what is decided from less is decided from more
        have hmore : ∀ c ∈ shape.children, ∀ b,
            (shape.children.foldl (await id) s).heard id c = some b → s.value? c = some b := by
          intro c _ b hb
          rw [heard] at hb
          split at hb
          · cases hb
          · exact value?_foldl_await.symm.trans hb
        cases hnone.symm.trans (Shape.decide?_mono hmore hdecide)
  · rw [value?_foldl_await] at hvalue
    exact (mem_waiting_foldl_await hchildren).mpr (Or.inr ⟨rfl, hc, hvalue⟩)

theorem Sound.foldl_await (hs : Sound g s)
    (hchildren : ∀ c ∈ children, c < s.waiters.size) :
    Sound g (children.foldl (await id) s) := by
  obtain ⟨hvalues, huntold, hsize⟩ := foldl_await_frame id children s
  refine ⟨hvalues ▸ hs.values_size, hsize.trans hs.waiters_size, ?_, ?_, ?_, ?_⟩
  · exact fun x hx => hs.derivable x (value?_foldl_await.symm.trans hx)
  · exact fun x hx => hs.underivable x (value?_foldl_await.symm.trans hx)
  · intro x hx
    rw [value?_foldl_await]
    exact hs.decided x (huntold ▸ hx)
  · intro c hc htold
    rw [value?_foldl_await] at hc
    rw [huntold] at htold
    refine List.eq_nil_iff_forall_not_mem.mpr fun y hy => ?_
    rcases (mem_waiting_foldl_await hchildren).mp hy with hy | ⟨-, -, hopen⟩
    · rw [hs.awaited c hc htold] at hy
      cases hy
    · rw [hopen] at hc
      cases hc

/-- Who is not told waits as before. -/
theorem Waits.release (h : s.Waits g x) (hid : id < s.waiters.size)
    (hdecided : (s.value? id).isSome) (hx : x ∉ s.waiting id) : (s.release id rest).Waits g x := by
  intro shape hshape
  obtain ⟨hnone, hwaits⟩ := h shape hshape
  refine ⟨decide?_heard_congr (fun c _ => ?_) hnone, fun c hc hvalue => ?_⟩
  · rw [heard, heard, waiting_release hid, value?_release]
    by_cases h : c = id
    · subst h
      rw [if_pos rfl, if_neg List.not_mem_nil, if_neg hx]
    · rw [if_neg h]
  · rw [value?_release] at hvalue
    rw [waiting_release hid, if_neg]
    · exact hwaits c hc hvalue
    · rintro rfl
      rw [hvalue] at hdecided
      cases hdecided

/-- Telling the waiters of a settled node takes it off the list of those to be told. -/
theorem Sound.release {before after : List ExprId} (hs : Sound g s)
    (huntold : s.untold = before ++ id :: after) : Sound g (s.release id (before ++ after)) := by
  have hid : id < s.waiters.size :=
    hs.waiters_size.symm ▸ (hs.decided id (by rw [huntold]; simp)).1
  refine ⟨hs.values_size, Array.size_setIfInBounds.trans hs.waiters_size, hs.derivable,
    hs.underivable, fun x hx => hs.decided x ?_, fun c hc htold => ?_⟩
  · rw [huntold]
    rcases List.mem_append.mp hx with hx | hx
    · exact List.mem_append_left _ hx
    · exact List.mem_append_right _ (List.mem_cons_of_mem _ hx)
  · rw [waiting_release hid]
    by_cases h : c = id
    · rw [if_pos h]
    · rw [if_neg h]
      refine hs.awaited c hc fun hmem => htold ?_
      rw [huntold] at hmem
      change c ∈ before ++ after
      simpa [h] using hmem

/-! ## Considering -/

variable (hclosed : ∀ id shape, g.shape? id = some shape → ∀ c ∈ shape.children, c < g.size)
include hclosed

/-- Considering an expression leaves it decided or waiting, and the others as they were. -/
theorem Sound.consider (hs : Sound g s) (id : ExprId) :
    Sound g (s.consider g id) ∧
      ((s.consider g id).value? id = none → (s.consider g id).Waits g id) ∧
      ∀ x, x ≠ id → (s.value? x = none → s.Waits g x) →
        (s.consider g id).value? x = none → (s.consider g id).Waits g x := by
  rcases consider_cases g s id with ⟨hskip, heq⟩ | ⟨shape, hshape, hopen, ⟨b, hdecide, heq⟩ |
    ⟨hnone, heq⟩⟩
  · rw [heq]
    refine ⟨hs, fun hvalue shape hshape => ?_, fun _ _ hwaits => hwaits⟩
    rcases hskip with hsome | hmissing
    · rw [hvalue] at hsome
      cases hsome
    · cases hmissing.symm.trans hshape
  · have hid := Grammar.lt_size_of_shape? hshape
    have hvalues : id < s.values.size := hs.values_size.symm ▸ hid
    rw [heq]
    refine ⟨hs.settle hshape hdecide, fun hvalue => ?_, fun x hx hwaits hvalue => ?_⟩
    · rw [value?_settle hvalues, if_pos rfl] at hvalue
      cases hvalue
    · rw [value?_settle hvalues, if_neg hx] at hvalue
      exact (hwaits hvalue).settle hs hid hopen
  · have hchildren : ∀ c ∈ shape.children, c < s.waiters.size :=
      fun c hc => hs.waiters_size.symm ▸ hclosed id shape hshape c hc
    rw [heq]
    refine ⟨hs.foldl_await hchildren, fun _ => waits_foldl_await hshape hchildren hnone,
      fun x hx hwaits hvalue => ?_⟩
    rw [value?_foldl_await] at hvalue
    exact (hwaits hvalue).foldl_await hx hchildren

end Nullability.Search

/-! ## Stages of the analysis, in any order -/

namespace Nullability

variable {g : Grammar} {s : Search} {id : ExprId} {left : List ExprId}

/-- A moment of the analysis. -/
structure Stage where
  search : Search
  /-- Who was told of a decision and is still to be evaluated again. -/
  told : List ExprId
  /-- What the walk has left. -/
  left : List ExprId

namespace Stage

/-- The analysis before the walk. -/
def initial (g : Grammar) : Stage where
  search := .initial g
  told := []
  left := []

/-- The moves of the analysis. -/
inductive Step (g : Grammar) : Stage → Stage → Prop
  /-- The walk leaves some expression of the grammar. -/
  | leave {s : Search} {told left : List ExprId} (id : ExprId) (inside : id < g.size) :
      Step g ⟨s, told, left⟩ ⟨s.consider g id, told, id :: left⟩
  /-- Some decided expression has its waiters told. -/
  | tell {s : Search} {told left before after : List ExprId} {id : ExprId}
      (untold : s.untold = before ++ id :: after) :
      Step g ⟨s, told, left⟩ ⟨s.release id (before ++ after), s.waiting id ++ told, left⟩
  /-- Some expression that was told is evaluated again. -/
  | consider {s : Search} {before after left : List ExprId} (id : ExprId) :
      Step g ⟨s, before ++ id :: after, left⟩ ⟨s.consider g id, before ++ after, left⟩

/-- Everything was left, and nobody is left to tell or to evaluate. -/
structure Finished (g : Grammar) (t : Stage) : Prop where
  untold : t.search.untold = []
  told : t.told = []
  left : ∀ id < g.size, id ∈ t.left

/-- What was left and is open waits, unless it was told and is to be evaluated again. -/
structure Sound (g : Grammar) (t : Stage) : Prop where
  search : Search.Sound g t.search
  waits : ∀ x ∈ t.left, x ∉ t.told → t.search.value? x = none → t.search.Waits g x

theorem sound_initial (g : Grammar) : Sound g (initial g) where
  search := Search.sound_initial g
  waits := fun x hx => by cases hx

/-- Every move keeps the invariant. -/
theorem Sound.step (hclosed : ∀ id shape, g.shape? id = some shape → ∀ c ∈ shape.children, c < g.size)
    {t t' : Stage} (ht : t.Sound g) (h : Step g t t') : t'.Sound g := by
  cases h with
  | leave id inside =>
      obtain ⟨hsound, hself, hothers⟩ := ht.search.consider hclosed id
      refine ⟨hsound, fun x hx htold hopen => ?_⟩
      by_cases h : x = id
      · exact h ▸ hself (h ▸ hopen)
      · exact hothers x h (ht.waits x (List.mem_of_ne_of_mem h hx) htold) hopen
  | @tell s told left before after id untold =>
      obtain ⟨hid, hdecided⟩ := ht.search.decided id (by rw [untold]; simp)
      refine ⟨ht.search.release untold, fun x hx htold hopen => ?_⟩
      obtain ⟨hwaiting, htold⟩ := not_or.mp (mt List.mem_append.mpr htold)
      exact (ht.waits x hx htold hopen).release (ht.search.waiters_size.symm ▸ hid) hdecided hwaiting
  | consider id =>
      obtain ⟨hsound, hself, hothers⟩ := ht.search.consider hclosed id
      refine ⟨hsound, fun x hx htold hopen => ?_⟩
      by_cases h : x = id
      · exact h ▸ hself (h ▸ hopen)
      · refine hothers x h (ht.waits x hx ?_) hopen
        simpa [h] using htold

/-- Every run of the analysis keeps the invariant. -/
theorem Sound.run (hclosed : ∀ id shape, g.shape? id = some shape → ∀ c ∈ shape.children, c < g.size)
    {t t' : Stage} (ht : t.Sound g) (h : ReflTransGen (Step g) t t') : t'.Sound g := by
  induction h with
  | refl => exact ht
  | tail _ hstep ih => exact ih.step hclosed hstep

/-- When the analysis is over, those found nullable are those with a derivation. -/
theorem Sound.derivable_iff {t : Stage} (ht : t.Sound g) (hfinished : t.Finished g) :
    t.search.value? id = some true ↔ g.Derivable id := by
  refine ⟨ht.search.derivable id, Grammar.known_of_derivable ht.search.underivable ?_⟩
  intro c strategy hopen hrule
  obtain ⟨shape, hshape, rfl⟩ := Option.map_eq_some_iff.mp hrule
  have hwaits := ht.waits c (hfinished.left c (Grammar.lt_size_of_shape? hshape))
    (by simp [hfinished.told]) hopen
  -- nobody is left to tell, so what is decided has been heard
  have hheard : t.search.heard c = t.search.value? := by
    funext x
    rw [Search.heard]
    split
    · rename_i hmem
      cases hx : t.search.value? x with
      | none => rfl
      | some b =>
          have hnone := ht.search.awaited x (by rw [hx]; rfl) (by simp [hfinished.untold])
          rw [hnone] at hmem
          cases hmem
    · rfl
  exact hheard ▸ (hwaits shape hshape).1

end Stage

/-! ## The result -/

/-- What was never settled is not nullable. -/
theorem Search.isNullable_nullability (s : Search) (id : ExprId) :
    s.nullability.isNullable id = (s.value? id).getD false := by
  rw [isNullable, nullability, Array.getD_eq_getD_getElem?, Array.getElem?_map, Search.value?,
    Array.getD_eq_getD_getElem?]
  cases s.values[id]? <;> rfl

theorem ext_isNullable {n n' : Nullability} (hsize : n.values.size = n'.values.size)
    (h : ∀ id, n.isNullable id = n'.isNullable id) : n = n' := by
  obtain ⟨values⟩ := n
  obtain ⟨values'⟩ := n'
  refine congrArg mk (Array.ext hsize fun id hid hid' => ?_)
  have hsame := h id
  rw [isNullable, isNullable, Array.getD_eq_getD_getElem?, Array.getD_eq_getD_getElem?] at hsame
  simpa [hid, hid'] using hsame

/-- The result of a finished analysis covers the grammar and is nullable where there is a
    derivation. -/
theorem Stage.Sound.nullability {t : Stage} (ht : t.Sound g) (hfinished : t.Finished g) :
    t.search.nullability.values.size = g.size ∧
      ∀ id, t.search.nullability.isNullable id = true ↔ g.Derivable id := by
  refine ⟨Array.size_map.trans ht.search.values_size, fun id => ?_⟩
  rw [Search.isNullable_nullability, ← ht.derivable_iff hfinished]
  cases t.search.value? id <;> simp

/-! ## The order of the walk -/

/-- Whoever is told is evaluated in turn. -/
theorem foldl_consider_run (s : Search) (told left : List ExprId) :
    ReflTransGen (Stage.Step g) ⟨s, told, left⟩ ⟨told.foldl (Search.consider g) s, [], left⟩ := by
  induction told generalizing s with
  | nil => exact .refl
  | cons id rest ih =>
      have hconsider : Stage.Step g ⟨s, [] ++ id :: rest, left⟩
          ⟨s.consider g id, [] ++ rest, left⟩ := .consider id
      exact .head hconsider (ih _)

/-- Propagation is a run of stages, whatever bound it is given. -/
theorem propagate_run (bound : Nat) (s : Search) (left : List ExprId) :
    ReflTransGen (Stage.Step g) ⟨s, [], left⟩ ⟨s.propagate g bound, [], left⟩ := by
  induction bound generalizing s with
  | zero => exact .refl
  | succ bound ih =>
      rw [Search.propagate]
      split
      · exact .refl
      · rename_i id rest huntold
        have htell : Stage.Step g ⟨s, [], left⟩
            ⟨s.release id ([] ++ rest), s.waiting id ++ [], left⟩ := .tell huntold
        rw [List.append_nil] at htell
        exact .head htell ((foldl_consider_run _ _ _).trans (ih _))

/-- So is leaving nodes one after the other, in the order of the walk. -/
theorem foldl_leave_run (ids : List ExprId) (hids : ∀ id ∈ ids, id < g.size) (s : Search)
    (left : List ExprId) :
    ReflTransGen (Stage.Step g) ⟨s, [], left⟩
      ⟨ids.foldl (Search.leave g) s, [], ids.reverse ++ left⟩ := by
  induction ids generalizing s left with
  | nil => exact .refl
  | cons id rest ih =>
      obtain ⟨hid, hrest⟩ := List.forall_mem_cons.mp hids
      rw [List.foldl_cons, List.reverse_cons, List.append_assoc]
      exact .head (.leave id hid) ((propagate_run _ _ _).trans (ih hrest _ _))

/-! Everything is decided at most once, so the bound on propagation is never the end of it. -/

/-- How many expressions are still to be decided or told of. -/
def Search.remaining (s : Search) : Nat :=
  s.values.count none + s.untold.length

/-- A node that is considered is decided and then to be told of, or left as it was: what remains
    stays the same. -/
theorem Search.remaining_consider (hsize : s.values.size = g.size) (id : ExprId) :
    (s.consider g id).remaining = s.remaining ∧ (s.consider g id).values.size = g.size := by
  rcases consider_cases g s id with ⟨-, heq⟩ | ⟨shape, hshape, hopen, ⟨b, -, heq⟩ | ⟨-, heq⟩⟩
  · rw [heq]
    exact ⟨rfl, hsize⟩
  · have hid : id < s.values.size := hsize.symm ▸ Grammar.lt_size_of_shape? hshape
    have hnone : s.values[id] = none := by
      rw [value?, Array.getD_eq_getD_getElem?, Array.getElem?_eq_getElem hid] at hopen
      exact hopen
    have hpositive : 0 < s.values.count none :=
      Array.count_pos_iff.mpr (hnone ▸ Array.getElem_mem hid)
    rw [heq, remaining, remaining, untold_settle, List.length_cons]
    refine ⟨?_, Array.size_setIfInBounds.trans hsize⟩
    rw [settle, Array.setIfInBounds_def, dif_pos hid, Array.count_set hid, hnone]
    simp
    omega
  · obtain ⟨hvalues, huntold, -⟩ := foldl_await_frame id shape.children s
    rw [heq, remaining, remaining, hvalues, huntold]
    exact ⟨rfl, hsize⟩

theorem Search.remaining_foldl_consider (told : List ExprId) (s : Search)
    (hsize : s.values.size = g.size) :
    (told.foldl (consider g) s).remaining = s.remaining ∧
      (told.foldl (consider g) s).values.size = g.size := by
  induction told generalizing s with
  | nil => exact ⟨rfl, hsize⟩
  | cons id rest ih =>
      obtain ⟨hremaining, hsize'⟩ := remaining_consider hsize id
      exact ⟨(ih _ hsize').1.trans hremaining, (ih _ hsize').2⟩

/-- A bound of what remains is enough to tell everyone. -/
theorem Search.propagate_told (bound : Nat) (s : Search) (hsize : s.values.size = g.size)
    (hbound : s.remaining ≤ bound) :
    (s.propagate g bound).untold = [] ∧ (s.propagate g bound).values.size = g.size := by
  induction bound generalizing s with
  | zero =>
      have hnone : s.untold.length = 0 := by
        rw [remaining] at hbound
        omega
      exact ⟨List.length_eq_zero_iff.mp hnone, hsize⟩
  | succ bound ih =>
      rw [propagate]
      split
      · rename_i huntold
        exact ⟨huntold, hsize⟩
      · rename_i id rest huntold
        obtain ⟨hremaining, hsize'⟩ :=
          remaining_foldl_consider (s.waiting id) (s.release id rest) hsize
        refine ih _ hsize' ?_
        rw [hremaining]
        rw [remaining, huntold, List.length_cons] at hbound
        exact Nat.le_of_succ_le_succ hbound

/-- After each node that is left everyone has been told. -/
theorem Search.foldl_leave_told (ids : List ExprId) (s : Search) (hsize : s.values.size = g.size)
    (huntold : s.untold = []) : (ids.foldl (leave g) s).untold = [] := by
  induction ids generalizing s with
  | nil => exact huntold
  | cons id rest ih =>
      obtain ⟨hremaining, hsize'⟩ := remaining_consider hsize id
      have hbound : (s.consider g id).remaining ≤ g.size := by
        rw [hremaining, remaining, huntold, ← hsize]
        exact Array.count_le_size
      obtain ⟨huntold', hsize''⟩ := propagate_told g.size _ hsize' hbound
      exact ih _ hsize'' huntold'

end Nullability

namespace Grammar

open Nullability

variable {g : Grammar} {n : Nullability} {id : ExprId} {shape : Shape ExprId}

/-- A walk from all expressions leaves each of them, and nothing else. -/
theorem mem_left_walk {events : List Walk.Event} (h : g.walk g.ids = .ok events) :
    id ∈ Walk.left events ↔ id < g.size := by
  obtain ⟨rfl, hnone⟩ := walkOver_eq_ok.mp h
  rw [(Walk.visitAll_left g.pathBound g.ids []).mem_iff]
  refine ⟨fun hmem => ?_, fun hid => ?_⟩
  · rcases (Walk.visitAll_marked g.pathBound g.ids []).known id hmem with hknown | hmissing
    · exact lt_size_of_children? hknown
    · exact absurd hmissing (Walk.missing?_eq_none hnone)
  · exact (walk_reaches h (List.mem_range.mpr hid) .refl).1

/-- An analysed grammar has all children in it. -/
theorem child_lt_size (h : g.nullability = .ok n) (hshape : g.shape? id = some shape)
    {child : ExprId} (hchild : child ∈ shape.children) : child < g.size := by
  rw [nullability] at h
  cases hwalk : g.walk g.ids with
  | error e =>
      rw [hwalk] at h
      cases h
  | ok events =>
      have hedge : Walk.Edge g.children? id child :=
        ⟨shape.children, by rw [children?, hshape]; rfl, hchild⟩
      exact lt_size_of_children?
        (walk_reaches hwalk (List.mem_range.mpr (lt_size_of_shape? hshape)) (.single hedge)).2

/-- A grammar is walked through unless a child is missing. -/
theorem walk_of_closed
    (hclosed : ∀ id shape, g.shape? id = some shape → ∀ c ∈ shape.children, c < g.size) :
    ∃ events, g.walk g.ids = .ok events := by
  refine ⟨_, walkOver_ok (fun u v hedge => ?_) fun r hr => isSome_children? (List.mem_range.mp hr)⟩
  obtain ⟨children, hchildren, hv⟩ := hedge
  obtain ⟨shape, hshape, rfl⟩ := Option.map_eq_some_iff.mp hchildren
  exact isSome_children? (hclosed u shape hshape v hv)

/-- The analysis is a finished run of its moves, in the order of the walk. -/
theorem exists_nullability_run
    (hclosed : ∀ id shape, g.shape? id = some shape → ∀ c ∈ shape.children, c < g.size) :
    ∃ t, ReflTransGen (Stage.Step g) (.initial g) t ∧ t.Finished g ∧
      g.nullability = .ok t.search.nullability := by
  obtain ⟨events, hwalk⟩ := walk_of_closed hclosed
  have hrun := foldl_leave_run (Walk.left events) (fun id => (mem_left_walk hwalk).mp)
    (.initial g) []
  have huntold := Search.foldl_leave_told (Walk.left events) (.initial g)
    (Search.sound_initial g).values_size rfl
  refine ⟨_, hrun, ⟨huntold, rfl, fun id hid => ?_⟩, ?_⟩
  · rw [List.append_nil, List.mem_reverse]
    exact (mem_left_walk hwalk).mpr hid
  · rw [nullability, hwalk]
    rfl

/-- The analysis covers the arena, and finds exactly what is derivable. -/
theorem isNullable_iff_derivable (h : g.nullability = .ok n) :
    n.covers g = true ∧ ∀ id, n.isNullable id = true ↔ g.Derivable id := by
  have hclosed : ∀ id shape, g.shape? id = some shape → ∀ c ∈ shape.children, c < g.size :=
    fun id shape hshape c hc => child_lt_size h hshape hc
  obtain ⟨t, hrun, hfinished, hok⟩ := exists_nullability_run hclosed
  obtain ⟨hsize, hderivable⟩ := ((Stage.sound_initial g).run hclosed hrun).nullability hfinished
  cases h.symm.trans hok
  exact ⟨beq_iff_eq.mpr hsize, hderivable⟩

/-- The analysis solves the rules. -/
theorem solves_nullability (h : g.nullability = .ok n) : g.Solves n.isNullable := by
  have hsame : n.isNullable = g.derives := by
    funext id
    rw [Bool.eq_iff_iff, (isNullable_iff_derivable h).2, derives_iff]
  rw [hsame]
  exact g.solves_derives

/-- An expression is nullable exactly when its rule says so. -/
theorem nullability_holds (h : g.nullability = .ok n) (hshape : g.shape? id = some shape) :
    n.isNullable id = shape.strategy.holds n.isNullable :=
  solves_nullability h hshape

/-- The analysis finds the LEAST solution of the rules: it covers the grammar, an expression is
    nullable exactly when it has a finite derivation, and any other order in which expressions are
    left, waiters are told and told expressions are evaluated again ends with the same result. -/
theorem nullability_least
    (hclosed : ∀ id shape, g.shape? id = some shape → ∀ c ∈ shape.children, c < g.size) :
    ∃ n, g.nullability = .ok n ∧ n.covers g = true ∧
      (∀ id, n.isNullable id = true ↔ g.Derivable id) ∧
      (∃ t, ReflTransGen (Stage.Step g) (.initial g) t ∧ t.Finished g ∧
        t.search.nullability = n) ∧
      ∀ t, ReflTransGen (Stage.Step g) (.initial g) t → t.Finished g →
        t.search.nullability = n := by
  obtain ⟨t, hrun, hfinished, hok⟩ := exists_nullability_run hclosed
  obtain ⟨hcovers, hderivable⟩ := isNullable_iff_derivable hok
  refine ⟨_, hok, hcovers, hderivable, ⟨t, hrun, hfinished, rfl⟩, fun t' hrun' hfinished' => ?_⟩
  obtain ⟨hsize, hderivable'⟩ := ((Stage.sound_initial g).run hclosed hrun').nullability hfinished'
  refine ext_isNullable (hsize.trans (beq_iff_eq.mp hcovers).symm) fun id => ?_
  rw [Bool.eq_iff_iff, hderivable', hderivable]

/-- A loop with a way out, with the way out shared, and a loop without one; nothing leads to the
    last two expressions. -/
def knotted : Grammar :=
  { nodes := #[.ofShape (.sequence [1, 1]), .ofShape (.choice [0, 2]), .ofShape (.literal ""),
      .ofShape (.sequence [3]), .ofShape (.oneMore 0)] }

/-- The analysis of the knotted grammar, by evaluation. -/
theorem nullability_knotted :
    knotted.nullability = .ok ⟨#[true, true, true, false, true]⟩ := by
  cbv

/-- In the knotted grammar some nodes wait for each other; whatever the order, it ends as the
    analysis does. -/
theorem nullability_least_knotted :
    (∀ id shape, knotted.shape? id = some shape → ∀ c ∈ shape.children, c < knotted.size) ∧
      knotted.Derivable 4 ∧ ¬ knotted.Derivable 3 ∧
      ∀ t, ReflTransGen (Stage.Step knotted) (.initial knotted) t → t.Finished knotted →
        t.search.nullability = ⟨#[true, true, true, false, true]⟩ := by
  have hclosed : ∀ id shape, knotted.shape? id = some shape →
      ∀ c ∈ shape.children, c < knotted.size :=
    fun id shape hshape c hc => child_lt_size nullability_knotted hshape hc
  obtain ⟨n, hok, -, hderivable, -, horder⟩ := nullability_least hclosed
  cases hok.symm.trans nullability_knotted
  exact ⟨hclosed, (hderivable 4).mp rfl, fun h => Bool.false_ne_true ((hderivable 3).mpr h), horder⟩

end Grammar

end Packrat
