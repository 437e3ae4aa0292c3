import Mathlib
import Packrat.Proofs.Histories
import Packrat.Proofs.Termination.Matching

/-! # What preparation rules out

    The search for left recursion judges a cycle by the boundaries on its way back, so a prepared
    grammar may have cycles of first positions that no boundary breaks.  It has none inside a REGION
    that no first position leaves and that holds no boundary: an edge that closed a cycle on the walk
    would have found its boundary in the region.  Whitespace with a fast path spans such a region,
    and so do operands that describe each other.  So skipping ends, every expression has a
    description, and a match never meets what the engine cannot run. -/

namespace Packrat

open Relation

namespace Grammar

variable {g g' : Grammar} {n : Nullability} {u v x id ws : ExprId}

/-- Where the search for left recursion selects nothing, a region that first positions do not leave
    and that holds no boundary has no cycle. -/
theorem acyclic_of_region (region : ExprId → Prop) (h : g.detectLeftRecursion n = .ok [])
    (hclosed : ∀ u v, region u → g.FirstEdge n u v → region v)
    (hbare : ∀ u, region u → g.isBoundary u = false) (hx : region x) :
    ¬ TransGen (g.FirstEdge n) x x := by
  intro hcycle
  have hstays : ∀ {y}, TransGen (g.FirstEdge n) x y →
      TransGen (fun u v => region u ∧ g.FirstEdge n u v) x y ∧ region y := by
    intro y hpath
    induction hpath with
    | single hedge => exact ⟨.single ⟨hx, hedge⟩, hclosed _ _ hx hedge⟩
    | tail _ hedge ih => exact ⟨ih.1.tail ⟨ih.2, hedge⟩, hclosed _ _ ih.2 hedge⟩
  obtain ⟨rank, hrank⟩ := exists_rank_of_firstWalk g n
  obtain ⟨u, v, hback, ⟨hu, hedge⟩, -⟩ :=
    exists_marked_of_cycle (fun u v huv => hrank u v huv.2) (hstays hcycle).1
  obtain ⟨-, b, hboundary, hvb, -⟩ := boundary_of_backEdge h hback
  have hbeyond : ∀ {y}, ReflTransGen (g.FirstEdge n) v y → region y := by
    intro y hpath
    induction hpath with
    | refl => exact hclosed u v hu hedge
    | tail _ hedge ih => exact hclosed _ _ ih hedge
  rw [hbare b (hbeyond hvb)] at hboundary
  cases hboundary

/-- Below a whitespace with a fast path there is no cycle of first positions. -/
theorem acyclic_whitespace (h : g.detectLeftRecursion n = .ok [])
    (hculprit : g.fastPathCulprit ws = .ok none) (hreach : ReflTransGen g.Child ws id) :
    ¬ TransGen (g.FirstEdge n) id id := by
  refine acyclic_of_region (ReflTransGen g.Child ws) h ?_ ?_ hreach
  · intro u v hu hedge
    exact (bareEdge_of_culprit hculprit hu hedge).2
  · intro u hu
    obtain ⟨s, hs, hfast⟩ := fastPath_of_culprit hculprit hu
    rw [isBoundary, hs]
    exact isBoundary_of_hasFastPath hfast

/-- No operand describes itself. -/
theorem acyclic_describedBy (h : g.detectLeftRecursion n = .ok []) :
    ¬ TransGen g.DescribedBy v v := by
  intro hcycle
  -- whatever is described by way of `v` has an operand that is, too
  have hnext : ∀ u, ReflTransGen g.DescribedBy u v →
      ∃ w, g.DescribedBy u w ∧ ReflTransGen g.DescribedBy w v := by
    intro u hu
    rcases ReflTransGen.cases_head hu with rfl | hstep
    · exact TransGen.head'_iff.mp hcycle
    · exact hstep
  refine acyclic_of_region (ReflTransGen g.DescribedBy · v) h ?_ ?_ .refl
    (TransGen.mono (fun _ _ hdescribed => hdescribed.bareEdge.1) _ _ hcycle)
  · intro u w hu hedge
    obtain ⟨operand, hdescribed, hoperand⟩ := hnext u hu
    rw [((hdescribed.bare n).1 w).mp hedge]
    exact hoperand
  · intro u hu
    obtain ⟨operand, hdescribed, -⟩ := hnext u hu
    exact (hdescribed.bare n).2

/-- A prepared grammar has a root.  If no expression is custom, what can be reached from it can be
    run, whatever the nesting, and every expression has a description. -/
theorem prepare_sheltered {options : PrepareOptions} {report : PrepareReport}
    (h : prepare options g = .ok report g')
    (hcustom : ∀ i spec children, g'.shape? i ≠ some (.custom spec children)) :
    ∃ n root, g'.root = some root ∧ g'.Sheltered n root True ∧
      ∀ id < g'.size, ∃ description, g'.describe id = .ok description := by
  obtain ⟨g₁, n, rfl, hn, hvalid⟩ := prepare_validates h
  have hdetect := validate_detects hvalid
  obtain ⟨hnodes, hwhitespace⟩ := validate_ok hvalid
  obtain ⟨root, hroot⟩ := validate_root hvalid
  have hentry : root ∈ g₁.entryPoints := by simp [entryPoints, hroot]
  have hinside : root < g₁.size := validateNode_inside (hnodes root ⟨root, hentry, .refl⟩)
  refine ⟨n, root, hroot, ⟨hn, hinside, ?_, ?_, Or.inl trivial, ?_⟩, ?_⟩
  · intro id name hreach hs
    have hresolved : g₁.isReference id = false :=
      validateNode_resolved (hnodes id ⟨root, hentry, hreach⟩)
    rw [isReference, show g₁.shape? id = some (.reference name) from hs] at hresolved
    cases hresolved
  · exact fun id spec children _ => hcustom id spec children
  · intro text ws p hws hp
    have hculprit := validateWhitespace_ok hwhitespace hws
    exact skip_ends hn hculprit (fun _ => acyclic_whitespace (g := g₁) hdetect hculprit) hp
  · exact fun id hid => describe_ok hn (fun _ _ => acyclic_describedBy (g := g₁) hdetect) hid

end Grammar

end Packrat
