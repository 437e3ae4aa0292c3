import Packrat.Proofs.Protocol.Inheritance
import Packrat.Sample.Grammars

/-! # The capture tree is a tree of spans

    Every node of a capture tree spans characters of the text, its children lie in its span one
    after the other, and a text that it carries is what it spans (`CaptureNode.WellSpanned`).

    Captures wait in one flat list until an enclosing capture claims them.  What a match found lies
    in order between where the match began and where it ended (`Found.Spread`).  Matches that follow
    each other, moves ahead, and captures that wrap or decorate hand that on; whatever is put back
    from a seed or from the memo table was found at the same position before. -/

namespace Packrat

/-! ## Nodes in order -/

namespace CaptureNode

/-- A node of a tree over a text: it spans characters of the text and carries no others, and its
    children lie in its span, one after the other. -/
inductive WellSpanned (chars : List Char) : CaptureNode → Prop where
  | intro {n : CaptureNode} (forward : n.start ≤ n.stop) (inside : n.stop ≤ chars.length)
      (carries : ∀ t, n.text = some t → t.toList = (chars.take n.stop).drop n.start)
      (nested : ∀ c ∈ n.children, n.start ≤ c.start ∧ c.stop ≤ n.stop)
      (ordered : n.children.Pairwise fun a b => a.stop ≤ b.start)
      (children : ∀ c ∈ n.children, c.WellSpanned chars) : n.WellSpanned chars

variable {chars : List Char} {n : CaptureNode}

/-- A decoration changes no span. -/
theorem start_decorate (mode : CaptureMode) (n : CaptureNode) :
    (mode.decorate n).start = n.start := by
  rw [CaptureMode.decorate]
  split <;> rfl

theorem stop_decorate (mode : CaptureMode) (n : CaptureNode) : (mode.decorate n).stop = n.stop := by
  rw [CaptureMode.decorate]
  split <;> rfl

theorem WellSpanned.decorate (h : n.WellSpanned chars) (mode : CaptureMode) :
    (mode.decorate n).WellSpanned chars := by
  obtain ⟨forward, inside, carries, nested, ordered, children⟩ := h
  rw [CaptureMode.decorate]
  split <;> exact ⟨forward, inside, carries, nested, ordered, children⟩

end CaptureNode

/-- Nodes of trees over a text that lie between two positions, one after the other. -/
structure Laid (chars : List Char) (p q : Nat) (nodes : List CaptureNode) : Prop where
  spanned : ∀ n ∈ nodes, n.WellSpanned chars
  between : ∀ n ∈ nodes, p ≤ n.start ∧ n.stop ≤ q
  ordered : nodes.Pairwise fun a b => a.stop ≤ b.start

namespace Laid

variable {chars : List Char} {p q r : Nat} {nodes nodes' : List CaptureNode}

theorem nil (chars : List Char) (p q : Nat) : Laid chars p q [] :=
  ⟨by simp, by simp, .nil⟩

theorem widen (h : Laid chars p q nodes) (hqr : q ≤ r) : Laid chars p r nodes :=
  ⟨h.spanned, fun n hn => ⟨(h.between n hn).1, (h.between n hn).2.trans hqr⟩, h.ordered⟩

theorem append (h : Laid chars p q nodes) (h' : Laid chars q r nodes') (hpq : p ≤ q)
    (hqr : q ≤ r) : Laid chars p r (nodes ++ nodes') := by
  refine ⟨?_, ?_, ?_⟩
  · exact List.forall_mem_append.mpr ⟨h.spanned, h'.spanned⟩
  · refine List.forall_mem_append.mpr ⟨(h.widen hqr).between, fun n hn => ?_⟩
    exact ⟨hpq.trans (h'.between n hn).1, (h'.between n hn).2⟩
  · refine List.pairwise_append.mpr ⟨h.ordered, h'.ordered, fun a ha b hb => ?_⟩
    exact (h.between a ha).2.trans (h'.between b hb).1

/-- Decorated nodes lie where they lay. -/
theorem decorate (h : Laid chars p q nodes) (mode : CaptureMode) :
    Laid chars p q (nodes.map mode.decorate) := by
  refine ⟨?_, ?_, ?_⟩
  · exact List.forall_mem_map.mpr fun n hn => (h.spanned n hn).decorate mode
  · refine List.forall_mem_map.mpr fun n hn => ?_
    rw [CaptureNode.start_decorate, CaptureNode.stop_decorate]
    exact h.between n hn
  · refine h.ordered.map mode.decorate fun a b hab => ?_
    rwa [CaptureNode.start_decorate, CaptureNode.stop_decorate]

/-- A node around nodes that lie between two positions. -/
theorem wrap (h : Laid chars p q nodes) (hpq : p ≤ q) (hq : q ≤ chars.length) {n : CaptureNode}
    (hstart : n.start = p) (hstop : n.stop = q) (hchildren : n.children = nodes)
    (htext : ∀ t, n.text = some t → t.toList = (chars.take q).drop p) : Laid chars p q [n] := by
  subst hstart hstop hchildren
  refine ⟨?_, ?_, List.pairwise_singleton _ n⟩
  · rw [List.forall_mem_singleton]
    exact ⟨hpq, hq, htext, h.between, h.ordered, h.spanned⟩
  · rw [List.forall_mem_singleton]
    exact ⟨le_rfl, le_rfl⟩

end Laid

/-! ## What a match finds -/

/-- What was found lies in order between where the match began and where it ended. -/
structure Found.Spread (text : Text) (p : Nat) (f : Found) : Prop where
  within : f.Within text p true
  laid : Laid text.chars.toList p f.stop f.nodes

/-- Captured nodes lie in order however they are put together. -/
theorem inherited_spread (text : Text) : Inherited text (Found.Spread text) where
  within h := h.within
  nothing hp := ⟨.nothing hp, .nil _ _ _⟩
  append h h' := ⟨h.within.append h'.within,
    h.laid.append h'.laid h.within.forward h'.within.forward⟩
  moved h hle hlast :=
    ⟨(inherited_within text).moved h.within hle hlast, h.laid.widen hle⟩
  closed := by
    intro mode p f h
    refine ⟨h.within.withNodes _, ?_⟩
    rw [CaptureMode.close]
    split
    · refine h.laid.wrap h.within.forward h.within.stop rfl rfl rfl ?_
      intro t ht
      split at ht
      · cases ht
        exact text.toList_slice p f.stop
      · cases ht
    · exact h.laid.decorate mode

/-! ## Trees of a parse -/

/-- Whatever a parse reads and keeps, the tree of its result is a tree of spans of the text, from the
    start to where the match ended; without a match it is empty. -/
theorem parseWith_spans (g : Grammar) (config : Config) (source : String) (r : ParseResult)
    (h : (parseWith g config source).outcome = .ok r) :
    r.tree.WellSpanned source.toList ∧ r.tree.start = 0 ∧ r.tree.stop = r.stop ∧
      (r.succeeded = false → r.tree.children = [] ∧ r.stop = 0) := by
  obtain ⟨o, hspread, hshows⟩ := (inherited_spread (.ofString source)).parseWith h
  have hchars : (Text.ofString source).chars.toList = source.toList := List.toList_toArray
  -- the root is a node around all that was found
  have hlaid : Laid source.toList 0 r.stop ((o.map Found.nodes).getD []) ∧
      r.stop ≤ source.toList.length := by
    rw [hshows.stop, ← hchars]
    cases o with
    | none => exact ⟨.nil _ _ _, Nat.zero_le _⟩
    | some f => exact ⟨(hspread f rfl).laid, (hspread f rfl).within.stop⟩
  have hroot : Laid source.toList 0 r.stop [r.tree] := by
    rw [hshows.tree]
    exact hlaid.1.wrap (Nat.zero_le _) hlaid.2 rfl rfl rfl (by rintro t ⟨⟩)
  refine ⟨hroot.spanned _ (List.mem_singleton_self _), ?_, ?_, ?_⟩
  · rw [hshows.tree]
    rfl
  · rw [hshows.tree]
    rfl
  · intro hfailed
    obtain rfl : o = none := by
      rwa [hshows.succeeded, Option.isSome_eq_false_iff, Option.isNone_iff_eq_none] at hfailed
    refine ⟨?_, hshows.stop⟩
    rw [hshows.tree]
    rfl

theorem parseWith_spans_ambiguousSum :
    ∃ r, (parseWith Sample.ambiguousSum { memoization := .all } "12+(3+4)+").outcome = .ok r ∧
      r.succeeded = true ∧ r.tree.toSexpr = "(_ (+ 12 (+ 3 4)))" ∧
      r.tree.WellSpanned "12+(3+4)+".toList ∧ r.tree.start = 0 ∧ r.tree.stop = 8 := by
  obtain ⟨r, h, hshown⟩ := exists_of_toOption
    (f := fun r => (r.succeeded, r.tree.toSexpr, r.stop)) (b := (true, "(_ (+ 12 (+ 3 4)))", 8))
    (x := (parseWith Sample.ambiguousSum { memoization := .all } "12+(3+4)+").outcome)
    (by decide +kernel)
  obtain ⟨hsucceeded, hsexpr, hstop⟩ : r.succeeded = true ∧
      r.tree.toSexpr = "(_ (+ 12 (+ 3 4)))" ∧ r.stop = 8 := by
    simpa only [Prod.mk.injEq] using hshown
  obtain ⟨hspanned, hstart, htree, -⟩ := parseWith_spans _ _ _ r h
  exact ⟨r, h, hsucceeded, hsexpr, hspanned, hstart, htree.trans hstop⟩

end Packrat
