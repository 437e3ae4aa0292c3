import Packrat.Proofs.Preparation.Breaking
import Packrat.Proofs.Preparation.Faults

/-! # Preparing a prepared grammar changes nothing

    What preparation leaves has no edge to a reference and no cycle of first positions that the
    search would select, and its entry points are no references.  So each pass of a second
    preparation leaves it as it is, and the checks give the same answer (`prepare_settles`). -/

namespace Packrat.Grammar

variable {g g' g₁ g₂ : Grammar} {n : Nullability} {options : PrepareOptions}
  {report : PrepareReport}

/-! ## The passes -/

/-- Break left recursion if the options ask for it. -/
def breakAsAsked (options : PrepareOptions) (before : Nullability) : Edit (List ExprId) :=
  if options.leftRecursion.inPlace then breakLeftRecursion before options.leftRecursion else pure []

/-- Analyse again, check and mark. -/
def checkAndMark (options : PrepareOptions) (references : Nat) (leftRecursive : List ExprId) :
    Edit PrepareReport := do
  let after ← Edit.reading Grammar.nullability
  Edit.reading fun g => g.validate after options
  modify fun g => { g with prepared := true }
  return { references, leftRecursive, nullable := after.count }

theorem prepare_rootless (hroot : g.root = none) :
    prepare options g = .error (.grammar (.missingRoot "<unset>")) g := by
  have hget : (get : Edit Grammar) g = .ok g g := rfl
  refine (Edit.bind_of_ok hget).trans ?_
  rw [hroot]
  rfl

theorem prepare_eq (hroot : g.root.isSome) : prepare options g = (do
    let references ← resolveReferences options.referenceChainLimit
    let before ← Edit.reading Grammar.nullability
    let leftRecursive ← breakAsAsked options before
    checkAndMark options references leftRecursive : Edit PrepareReport) g := by
  obtain ⟨root, hroot⟩ := Option.isSome_iff_exists.mp hroot
  have hget : (get : Edit Grammar) g = .ok g g := rfl
  refine (Edit.bind_of_ok hget).trans ?_
  rw [hroot]
  simp only [Option.isNone_some, Bool.false_eq_true, if_false, breakAsAsked, checkAndMark]
  split <;> rfl

/-- A preparation that succeeded, pass by pass. -/
theorem prepare_ok (h : prepare options g = .ok report g') : ∃ g₁ before g₂ after,
    resolveReferences options.referenceChainLimit g = .ok report.references g₁ ∧
      g₁.nullability = .ok before ∧
      breakAsAsked options before g₁ = .ok report.leftRecursive g₂ ∧
      g₂.nullability = .ok after ∧ g₂.validate after options = .ok () ∧
      g' = { g₂ with prepared := true } ∧ report.nullable = after.count := by
  cases hroot : g.root with
  | none => cases (prepare_rootless hroot).symm.trans h
  | some root =>
      rw [prepare_eq (by rw [hroot]; rfl)] at h
      obtain ⟨references, g₁, hresolve, h₁⟩ := Edit.bind_ok h
      obtain ⟨before, _, hread, h₂⟩ := Edit.bind_ok h₁
      obtain ⟨hbefore, rfl⟩ := Edit.reading_ok hread
      obtain ⟨wrapped, g₂, hbreak, h₃⟩ := Edit.bind_ok h₂
      obtain ⟨after, _, hread, h₄⟩ := Edit.bind_ok h₃
      obtain ⟨hafter, rfl⟩ := Edit.reading_ok hread
      obtain ⟨⟨⟩, _, hread, hend⟩ := Edit.bind_ok h₄
      obtain ⟨hvalid, rfl⟩ := Edit.reading_ok hread
      cases hend
      exact ⟨_, before, _, after, hresolve, hbefore, hbreak, hafter, hvalid, rfl, rfl⟩

/-- When the passes before them succeed, only the checks are left. -/
theorem prepare_eq_checkAndMark {references : Nat} {wrapped : List ExprId} {before : Nullability}
    (hroot : g.root.isSome)
    (hresolve : resolveReferences options.referenceChainLimit g = .ok references g₁)
    (hbefore : g₁.nullability = .ok before)
    (hbreak : breakAsAsked options before g₁ = .ok wrapped g₂) :
    prepare options g = checkAndMark options references wrapped g₂ := by
  rw [prepare_eq hroot]
  refine (Edit.bind_of_ok hresolve).trans ((Edit.bind_of_ok (Edit.reading_of_ok hbefore)).trans ?_)
  exact Edit.bind_of_ok hbreak

theorem checkAndMark_of_valid {references : Nat} {wrapped : List ExprId} {after : Nullability}
    (hafter : g.nullability = .ok after) (hvalid : g.validate after options = .ok ()) :
    checkAndMark options references wrapped g =
      .ok ⟨references, wrapped, after.count⟩ { g with prepared := true } :=
  (Edit.bind_of_ok (Edit.reading_of_ok hafter)).trans (Edit.bind_of_ok (Edit.reading_of_ok hvalid))

/-- A preparation succeeds when its passes do. -/
theorem prepare_of_passes {references : Nat} {wrapped : List ExprId} {before after : Nullability}
    (hroot : g.root.isSome)
    (hresolve : resolveReferences options.referenceChainLimit g = .ok references g₁)
    (hbefore : g₁.nullability = .ok before)
    (hbreak : breakAsAsked options before g₁ = .ok wrapped g₂)
    (hafter : g₂.nullability = .ok after) (hvalid : g₂.validate after options = .ok ()) :
    prepare options g = .ok ⟨references, wrapped, after.count⟩ { g₂ with prepared := true } :=
  (prepare_eq_checkAndMark hroot hresolve hbefore hbreak).trans (checkAndMark_of_valid hafter hvalid)

theorem describeWithin_mark (g : Grammar) (mark : Bool) (steps : Nat) (id : ExprId) :
    ({ g with prepared := mark } : Grammar).describeWithin steps id = g.describeWithin steps id := by
  induction steps generalizing id with
  | zero => rfl
  | succ steps ih =>
      rw [describeWithin, describeWithin]
      simp only [ih]
      rfl

/-- The checks do not see the mark. -/
theorem validate_mark (g : Grammar) (mark : Bool) (n : Nullability) :
    ({ g with prepared := mark } : Grammar).validate n options = g.validate n options := by
  have hdescribe : ({ g with prepared := mark } : Grammar).describe = g.describe :=
    funext fun id => describeWithin_mark g mark _ id
  have hnode : ({ g with prepared := mark } : Grammar).validateNode n options =
      g.validateNode n options := by
    funext id
    rw [validateNode, validateNode, hdescribe]
    rfl
  rw [validate, validate, hnode, hdescribe]
  rfl

/-! ## Preparing again -/

theorem breakAsAsked_resolved {wrapped : List ExprId} (hn : g.nullability = .ok n)
    (hresolved : g.Resolved) (h : breakAsAsked options n g = .ok wrapped g') : g'.Resolved := by
  rw [breakAsAsked] at h
  split at h
  · obtain ⟨hdetect, inner, hwrapped, hinner⟩ := breakLeftRecursion_wraps hn h
    refine hwrapped.resolved (fun _ _ hs _ hv => child_lt_size hn hs hv) (fun x i hi => ?_) hresolved
    obtain ⟨u, hedge⟩ := (detectLeftRecursion_selects hdetect).2 x ((hinner x).mp (by rw [hi]; rfl))
    obtain ⟨s, hs, hchild⟩ := child_of_firstEdge hedge
    exact hresolved u s hs x hchild
  · cases h
    exact hresolved

/-- Where the search selects nothing, there is nothing to break. -/
theorem breakAsAsked_again (hdetect : g.detectLeftRecursion n = .ok []) :
    breakAsAsked options n g = .ok [] g := by
  rw [breakAsAsked]
  split
  · have hread : Edit.reading (·.detectLeftRecursion n) g = .ok [] g := Edit.reading_of_ok hdetect
    exact (Edit.bind_of_ok hread).trans rfl
  · rfl

/-- A marked grammar that passes the checks, with no edge to a reference, is prepared as it is. -/
theorem prepare_again (hmark : g.prepared = true) (hresolved : g.Resolved)
    (hn : g.nullability = .ok n) (hvalid : g.validate n options = .ok ()) :
    prepare options g = .ok { references := 0, leftRecursive := [], nullable := n.count } g := by
  have hclosed : ∀ u s, g.shape? u = some s → ∀ v ∈ s.children, v < g.size :=
    fun u s hs v hv => child_lt_size hn hs hv
  have hentries : ∀ id ∈ g.entryPoints, id < g.size ∧ g.isReference id = false := by
    intro id hentry
    have hnode := (validate_ok hvalid).1 id ⟨id, hentry, .refl⟩
    exact ⟨validateNode_inside hnode, validateNode_resolved hnode⟩
  have hread : Edit.reading Grammar.nullability g = .ok n g := Edit.reading_of_ok hn
  have hcheck : Edit.reading (fun g => g.validate n options) g = .ok () g :=
    Edit.reading_of_ok hvalid
  obtain ⟨root, hroot⟩ := validate_root hvalid
  rw [prepare_eq (by rw [hroot]; rfl)]
  refine (Edit.bind_of_ok (resolveReferences_again hclosed hresolved hentries)).trans ?_
  refine (Edit.bind_of_ok hread).trans ?_
  refine (Edit.bind_of_ok (breakAsAsked_again (validate_detects hvalid))).trans ?_
  refine (Edit.bind_of_ok hread).trans ?_
  refine (Edit.bind_of_ok hcheck).trans ?_
  have hsame : ({ g with prepared := true } : Grammar) = g := by
    rw [← hmark]
  exact congrArg (EStateM.Result.ok _) hsame

/-- Whatever stops a preparation that breaks left recursion, it is not that a cycle is left. -/
theorem prepare_unblamed (hinPlace : options.leftRecursion.inPlace = true) :
    (prepare options).UnblamedAt g := by
  cases hroot : g.root with
  | none =>
      intro e g' h
      rw [prepare_rootless hroot] at h
      cases h
      rfl
  | some root =>
      rw [Edit.UnblamedAt, prepare_eq (by rw [hroot]; rfl)]
      refine (resolveReferences_unblamed _ g).bind fun references g₁ _ => ?_
      refine .bind (.reading (nullability_unblamed g₁)) fun before g₂ hread => ?_
      obtain ⟨hbefore, rfl⟩ := Edit.reading_ok hread
      rw [breakAsAsked, if_pos hinPlace]
      refine (breakLeftRecursion_unblamed before _ _).bind fun wrapped g₃ hbreak => ?_
      obtain ⟨after, hafter, hdetect⟩ := breakLeftRecursion_breaks hbefore hbreak
      have hread : Edit.reading Grammar.nullability g₃ = .ok after g₃ := Edit.reading_of_ok hafter
      refine .bind (.reading (nullability_unblamed g₃)) fun n g₄ hread' => ?_
      cases hread.symm.trans hread'
      refine .bind (.reading (validate_unblamed hdetect)) fun _ g₅ _ => ?_
      exact .bind (fun e g' h => by cases h) fun _ g₆ _ => .pure _ g₆

/-- A prepared grammar is prepared again as it is: no reference is left to resolve and no cycle to
    break, and as many expressions are nullable.  Breaking left recursion leaves none to break, so a
    preparation that breaks it is never refused for a cycle that is left. -/
theorem prepare_settles :
    (∀ options g report g', prepare options g = .ok report g' →
      prepare options g' =
        .ok { references := 0, leftRecursive := [], nullable := report.nullable } g') ∧
    (∀ n options g selected g', g.nullability = .ok n →
      breakLeftRecursion n options g = .ok selected g' →
        ∃ n', g'.nullability = .ok n' ∧ g'.detectLeftRecursion n' = .ok []) ∧
    ∀ options g description g', options.leftRecursion.inPlace = true →
      prepare options g ≠ .error (.grammar (.unbrokenLeftRecursion description)) g' := by
  refine ⟨?_, fun n options g selected g' hn h => breakLeftRecursion_breaks hn h, ?_⟩
  · intro options g report g' h
    obtain ⟨g₁, before, g₂, after, hresolve, hbefore, hbreak, hafter, hvalid, rfl, hcount⟩ :=
      prepare_ok h
    have hresolved := breakAsAsked_resolved hbefore (resolveReferences_resolved hresolve) hbreak
    have hvalid' : ({ g₂ with prepared := true } : Grammar).validate after options = .ok () :=
      (validate_mark g₂ true after).trans hvalid
    rw [hcount]
    exact prepare_again rfl hresolved ((nullability_mark g₂ true).trans hafter) hvalid'
  · intro options g description g' hinPlace h
    have hblamed := prepare_unblamed hinPlace _ g' h
    cases hblamed

/-- Sums of which the left one is referred to by name. -/
def namedSums : Grammar :=
  { nodes := #[.ofShape (.choice [1, 3]), .ofShape (.sequence [2, 4, 3]),
      .ofShape (.reference "sum"), .ofShape (.literal "n"), .ofShape (.literal "+")]
    rules := [("sum", 0)]
    root := some 0 }

/-- The sums lead to themselves. -/
def namedSums.resolved : Grammar :=
  { namedSums with
    nodes := #[.ofShape (.choice [1, 3]), .ofShape (.sequence [0, 4, 3]),
      .ofShape (.reference "sum"), .ofShape (.literal "n"), .ofShape (.literal "+")] }

/-- The sums are wrapped. -/
def namedSums.broken : Grammar :=
  { namedSums with
    nodes := #[.ofShape (.leftRecursive 5 false), .ofShape (.sequence [0, 4, 3]),
      .ofShape (.reference "sum"), .ofShape (.literal "n"), .ofShape (.literal "+"),
      .ofShape (.choice [1, 3])] }

theorem prepare_namedSums :
    prepare {} namedSums = .ok ⟨1, [0], 0⟩ { namedSums.broken with prepared := true } := by
  cbv

theorem nullability_namedSums :
    namedSums.resolved.nullability = .ok ⟨Array.replicate 5 false⟩ := by
  cbv

theorem breakLeftRecursion_namedSums :
    breakLeftRecursion ⟨Array.replicate 5 false⟩ {} namedSums.resolved =
      .ok [0] namedSums.broken := by
  cbv

theorem prepare_settles_namedSums :
    prepare {} { namedSums.broken with prepared := true } =
        .ok ⟨0, [], 0⟩ { namedSums.broken with prepared := true } ∧
      (∃ n, namedSums.broken.nullability = .ok n ∧ namedSums.broken.detectLeftRecursion n = .ok []) ∧
      ∀ description g', prepare {} namedSums ≠
        .error (.grammar (.unbrokenLeftRecursion description)) g' := by
  obtain ⟨hagain, hbreaks, hblame⟩ := prepare_settles
  refine ⟨hagain {} namedSums _ _ prepare_namedSums, ?_, fun description g' => ?_⟩
  · exact hbreaks _ {} namedSums.resolved [0] _ nullability_namedSums breakLeftRecursion_namedSums
  · exact hblame {} namedSums description g' rfl

end Packrat.Grammar
