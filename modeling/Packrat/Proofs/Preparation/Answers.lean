import Packrat.Proofs.Preparation.Erasure
import Packrat.Proofs.Preparation.Idempotence
import Packrat.Proofs.Preparation.References
import Packrat.Proofs.Termination.Effort

/-! # When preparation answers

    Preparation of a grammar that has everything it refers to comes to a report or to an error, in
    every pass but the last: to refuse a cycle of first positions it describes the node on it, and
    a description follows the operands of unnamed tokens and captures.  That is the very chain that
    has just been found to be a circle, so the description may have no end
    (`Grammar.DescribedForever`), WHATEVER THE NUMBER OF STEPS (`describeWithin_forever`).

    The route: each pass of a closed grammar either ends with a grammar error or leaves a closed
    grammar; the checks end unless they get `Stuck`; so preparation ends unless it is `Stranded`
    (`prepare_ends`).  Breaking left recursion leaves the search nothing to select, so only where it
    is not asked for can preparation be stranded. -/

namespace Packrat

open Relation

/-- The fault is that a grammar is not in order. -/
def Fault.IsRefusal (e : Fault) : Prop :=
  ∃ error, e = .grammar error

namespace Grammar

variable {g g' : Grammar} {n : Nullability} {options : PrepareOptions} {id u v : ExprId}

/-! ## Descriptions -/

/-- The operands that describe `id` come to one that is described by itself. -/
def DescribedForever (g : Grammar) (id : ExprId) : Prop :=
  ∃ v, ReflTransGen g.DescribedBy id v ∧ TransGen g.DescribedBy v v

/-- There is always a next operand. -/
theorem DescribedForever.next (h : g.DescribedForever id) :
    ∃ operand, g.DescribedBy id operand ∧ g.DescribedForever operand := by
  obtain ⟨v, hreach, hcycle⟩ := h
  rcases ReflTransGen.cases_head hreach with rfl | ⟨operand, hstep, hrest⟩
  · obtain ⟨operand, hstep, hback⟩ := TransGen.head'_iff.mp hcycle
    exact ⟨operand, hstep, id, hback, hcycle⟩
  · exact ⟨operand, hstep, v, hrest, hcycle⟩

/-- A description by an operand takes one step. -/
theorem DescribedBy.within (h : g.DescribedBy u v) (steps : Nat) :
    g.describeWithin (steps + 1) u = g.describeWithin steps v := by
  obtain ⟨⟨name, shape, flags⟩, hnode, hname, hshape⟩ := h
  simp only at hname hshape
  subst hname
  rw [describeWithin, hnode]
  rcases hshape with rfl | ⟨mode, rfl, haccessor⟩
  · rfl
  · simp only [haccessor]

/-- However many steps it is given, such a description does not end. -/
theorem describeWithin_forever (h : g.DescribedForever id) (steps : Nat) :
    ∃ x, g.describeWithin steps id = .error (.crash (.endlessDescription x)) := by
  induction steps generalizing id with
  | zero => exact ⟨id, rfl⟩
  | succ steps ih =>
      obtain ⟨operand, hstep, hrest⟩ := h.next
      rw [hstep.within]
      exact ih hrest

/-- A description ends, or it would go on forever. -/
theorem describe_ends (hn : g.nullability = .ok n) (hid : id < g.size) :
    (¬ g.DescribedForever id ∧ ∃ description, g.describe id = .ok description) ∨
      g.DescribedForever id ∧ ∃ x, g.describe id = .error (.crash (.endlessDescription x)) := by
  by_cases hforever : g.DescribedForever id
  · exact Or.inr ⟨hforever, describeWithin_forever hforever _⟩
  · exact Or.inl ⟨hforever,
      describe_ok hn (fun v hreach hcycle => hforever ⟨v, hreach, hcycle⟩) hid⟩

/-- What is described by no operand has a description. -/
theorem describe_of_shape {s : Shape ExprId} (hn : g.nullability = .ok n)
    (hs : g.shape? id = some s) (htoken : ∀ operand, s ≠ .token operand)
    (hcapture : ∀ operand mode, s ≠ .capture operand mode) :
    ∃ description, g.describe id = .ok description := by
  rcases describe_ends hn (lt_size_of_shape? hs) with ⟨-, hok⟩ | ⟨hforever, -⟩
  · exact hok
  · obtain ⟨operand, ⟨e, hnode, -, hshape⟩, -⟩ := hforever.next
    obtain rfl : e.shape = s := Option.some.inj ((shape?_of_node? hnode).symm.trans hs)
    rcases hshape with hshape | ⟨mode, hshape, -⟩
    · exact absurd hshape (htoken operand)
    · exact absurd hshape (hcapture operand mode)

/-! ## Closed grammars -/

/-- No two rules have one name, and all that edges, rules, root and whitespace refer to is there. -/
structure Closed (g : Grammar) : Prop where
  names : (g.rules.map Prod.fst).Nodup
  inside : ∀ v, g.Held v → v < g.size

namespace Closed

theorem child (h : g.Closed) : ∀ u s, g.shape? u = some s → ∀ v ∈ s.children, v < g.size :=
  fun u s hs v hv => h.inside v (Or.inr ⟨u, s, hs, hv⟩)

theorem entry (h : g.Closed) : ∀ r ∈ g.entryPoints, r < g.size :=
  fun r hr => h.inside r (Or.inl hr)

theorem nullability (h : g.Closed) : ∃ n, g.nullability = .ok n := by
  obtain ⟨_, -, -, hn⟩ := exists_nullability_run h.child
  exact ⟨_, hn⟩

theorem firstRoots (h : g.Closed) : ∀ r ∈ g.root.toList ++ g.ruleIds, r < g.size :=
  fun r hr => h.entry r (List.mem_append_left _ hr)

theorem of_nodes (names : (g.rules.map Prod.fst).Nodup) (hentry : ∀ r ∈ g.entryPoints, r < g.size)
    (hnodes : ∀ e ∈ g.nodes, ∀ v ∈ e.shape.children, v < g.size) : g.Closed where
  names := names
  inside := by
    rintro v (hv | ⟨u, s, hs, hv⟩)
    · exact hentry v hv
    · obtain ⟨e, hnode, rfl⟩ := Option.map_eq_some_iff.mp hs
      exact hnodes e (Array.mem_of_getElem? hnode) v hv

/-- A grammar with the same rules and entry points and as many nodes is closed if its children are
    there. -/
theorem of_grown (h : g.Closed) (hsize : g.size ≤ g'.size) (hroot : g'.root = g.root)
    (hrules : g'.rules = g.rules) (hwhitespace : g'.whitespace = g.whitespace)
    (hchild : ∀ u s, g'.shape? u = some s → ∀ v ∈ s.children, v < g'.size) : g'.Closed where
  names := by
    rw [hrules]
    exact h.names
  inside := by
    rintro v (hentry | ⟨u, s, hs, hv⟩)
    · rw [mem_entryPoints, hroot, hrules, hwhitespace, ← mem_entryPoints] at hentry
      exact (h.entry v hentry).trans_le hsize
    · exact hchild u s hs v hv

/-- Walks from roots that are there meet only what is there. -/
theorem walk (h : g.Closed) (roots : List ExprId) (hroots : ∀ r ∈ roots, r < g.size) :
    ∃ events, g.walk roots = .ok events ∧ ∀ x ∈ Walk.entered events, x < g.size := by
  have hwalk : g.walk roots = .ok _ := walkOver_ok
    (fun u v hedge => by
      obtain ⟨s, hs, hv⟩ := child_iff_edge.mpr hedge
      exact isSome_children? (h.child u s hs v hv))
    fun r hr => isSome_children? (hroots r hr)
  refine ⟨_, hwalk, fun x hx => ?_⟩
  have hmet := (Walk.visitAll_marked g.pathBound roots []).known x hx
  exact lt_size_of_children?
    (hmet.resolve_right (Walk.missing?_eq_none (walkOver_eq_ok.mp hwalk).2))

/-- The list of nodes in use has all of them, and they are there. -/
theorem reachable (h : g.Closed) : ∃ order, g.reachable = .ok order ∧
    (∀ id, id ∈ order ↔ g.InUse id) ∧ ∀ id ∈ order, id < g.size := by
  have hchild : g.Child = Walk.Edge g.children? := funext₂ fun _ _ => propext child_iff_edge
  obtain ⟨events, hwalk, -⟩ := h.walk _ h.entry
  rcases g.reachable_lists with ⟨order, hreachable, hlists, hinside⟩ | ⟨x, herror, -⟩
  · refine ⟨order, hreachable, fun id => ?_, hinside⟩
    rw [InUse, hchild]
    exact hlists.mem_iff id
  · rw [Grammar.reachable, hwalk] at herror
    cases herror

end Closed

/-! ## References -/

theorem meaning?_inside (h : g.Closed) {name : String} (hmeaning : g.meaning? name = some v) :
    v < g.size := by
  rw [meaning?, Option.or_eq_some_iff] at hmeaning
  rcases hmeaning with hrule | ⟨-, hnamed⟩
  · obtain ⟨before, after, hrules, -⟩ := List.lookup_eq_some_iff.mp hrule
    exact h.entry v (mem_entryPoints.mpr (Or.inl ⟨name, by rw [hrules]; simp⟩))
  · obtain ⟨events, hwalk, hinside⟩ := h.walk g.ids fun _ hr => List.mem_range.mp hr
    have hmet := List.mem_of_find?_eq_some hnamed
    rw [walkOrder, (walkOver_eq_ok.mp hwalk).1] at hmet
    exact hinside v hmet

theorem Leads.inside (h : g.Closed) {hops : Nat} (hleads : g.Leads hops u v) (hu : u < g.size) :
    v < g.size := by
  induction hleads with
  | here => exact hu
  | hop _ hnext _ ih => exact ih (meaning?_inside h hnext)

/-- A chain of a closed grammar does not break because of something that is not there. -/
theorem Breaks.isRefusal {limit : Nat} {e : Fault} (h : g.Closed) (hv : v < g.size)
    (hbreaks : g.Breaks limit v e) : e.IsRefusal := by
  cases hbreaks with
  | unknown _ _ _ _ => exact ⟨_, rfl⟩
  | tooLong _ _ _ => exact ⟨_, rfl⟩
  | outside hleads _ hlast =>
      obtain ⟨expr, hnode⟩ := node?_of_lt_size (hleads.inside h hv)
      cases hlast.symm.trans (shape?_of_node? hnode)

/-- Resolving ends with a closed grammar that has a root if there was one, or it refuses the
    grammar. -/
theorem resolveReferences_answers (h : g.Closed) (limit : Nat) :
    (∃ count g', resolveReferences limit g = .ok count g' ∧ g'.Closed ∧
      g'.root.isSome = g.root.isSome) ∨
    ∃ e, resolveReferences limit g = .error (.grammar e) g := by
  rcases resolveReferences_ends h.names limit with
    ⟨m, hm, -, count, -, hrun⟩ | ⟨v, e, hheld, hbreaks, hrun⟩
  · refine Or.inl ⟨count, _, hrun, ⟨?_, fun v hv => ?_⟩, ?_⟩
    · change ((g.rules.map fun rule => (rule.1, m rule.2)).map Prod.fst).Nodup
      rw [List.map_map]
      exact h.names
    · obtain ⟨w, hw, rfl⟩ := held_redirected (g := g) (m := m) hv
      change _ < (g.nodes.map _).size
      rw [Array.size_map]
      exact (hm w hw).inside
    · change (g.root.map m).isSome = g.root.isSome
      rw [Option.isSome_map]
  · obtain ⟨error, rfl⟩ := hbreaks.isRefusal h (h.inside v hheld)
    exact Or.inr ⟨error, hrun⟩

/-! ## Breaking left recursion -/

/-- Breaking succeeds and leaves a closed grammar with the same root, in which the search selects
    nothing if it was asked for, and the same grammar if not. -/
theorem breakAsAsked_answers (h : g.Closed) (hn : g.nullability = .ok n)
    (options : PrepareOptions) :
    ∃ wrapped g', breakAsAsked options n g = .ok wrapped g' ∧ g'.Closed ∧ g'.root = g.root ∧
      (options.leftRecursion.inPlace = true → ∃ n', g'.nullability = .ok n' ∧
        g'.detectLeftRecursion n' = .ok []) ∧
      (options.leftRecursion.inPlace = false → g' = g) := by
  cases hinPlace : options.leftRecursion.inPlace with
  | false =>
      refine ⟨[], g, ?_, h, rfl, by simp, fun _ => rfl⟩
      rw [breakAsAsked, hinPlace]
      rfl
  | true =>
      obtain ⟨selected, g', -, -, -, hbreak, henclosed, -⟩ :=
        breakLeftRecursion_encloses hn h.firstRoots options.leftRecursion
      obtain ⟨-, inner, hwrapped, -⟩ := breakLeftRecursion_wraps hn hbreak
      refine ⟨selected, g', ?_, ?_, henclosed.root, fun _ => breakLeftRecursion_breaks hn hbreak,
        by simp⟩
      · rw [breakAsAsked, hinPlace, if_pos rfl]
        exact hbreak
      · exact h.of_grown hwrapped.grows henclosed.root henclosed.rules henclosed.whitespace
          (hwrapped.closed h.child)

/-! ## The checks -/

/-- The checks are passed up to the search for cycles, and the first node that it selects would be
    described forever. -/
structure Stuck (g : Grammar) (n : Nullability) (options : PrepareOptions) : Prop where
  nodes : ∀ id, g.InUse id → g.validateNode n options id = .ok ()
  whitespace : g.validateWhitespace = .ok ()
  cycle : ∃ x later, g.detectLeftRecursion n = .ok (x :: later) ∧ g.DescribedForever x

/-- The checks of one node describe only repetitions and clusters. -/
theorem validateNode_refuses (hn : g.nullability = .ok n) (hid : id < g.size) :
    Raises Fault.IsRefusal (g.validateNode n options id) := by
  obtain ⟨e, hnode⟩ := node?_of_lt_size hid
  have hs : g.shape? id = some e.shape := shape?_of_node? hnode
  have hread : g.node id = .ok e := by rw [node, hnode]
  rw [validateNode, hread]
  refine (Raises.ok e).bind fun e' he => ?_
  cases he
  cases hshape : e.shape with
  | reference name => exact .error ⟨_, rfl⟩
  | zeroMore operand | oneMore operand =>
      rw [hshape] at hs
      obtain ⟨description, hdescribe⟩ := describe_of_shape hn hs (by simp) (by simp)
      dsimp only
      split
      · rw [hdescribe]
        exact .error ⟨_, rfl⟩
      · exact .ok _
  | cluster groups =>
      rw [hshape] at hs
      obtain ⟨description, hdescribe⟩ := describe_of_shape hn hs (by simp) (by simp)
      dsimp only
      cases Group.sharedPrecedence? groups with
      | none => exact .ok _
      | some precedence =>
          simp only [hdescribe]
          exact .error ⟨_, rfl⟩
  | _ => exact .ok _

theorem validateWhitespace_refuses (h : g.Closed) :
    Raises Fault.IsRefusal g.validateWhitespace := by
  rw [validateWhitespace]
  cases hws : g.whitespace with
  | none => exact .ok _
  | some ws =>
      have hinside : ws < g.size := h.entry ws (mem_entryPoints.mpr (Or.inr (Or.inr hws)))
      obtain ⟨events, hwalk, hmet⟩ := h.walk [ws] (by simpa using hinside)
      have hculprit : g.fastPathCulprit ws =
          .ok ((Walk.entered events).find? fun e => !g.hasFastPath e) := by
        rw [fastPathCulprit, hwalk]
        rfl
      simp only [hculprit]
      refine (Raises.ok _).bind fun culprit hfound => ?_
      cases culprit with
      | none => exact .ok _
      | some culprit =>
          have hlt := hmet culprit (List.mem_of_find?_eq_some (Except.ok.inj hfound))
          obtain ⟨e, hnode⟩ := node?_of_lt_size hlt
          have hread : g.node culprit = .ok e := by rw [node, hnode]
          simp only [hread]
          exact .error ⟨_, rfl⟩

/-- Checks that are not stuck end. -/
theorem validate_refuses (h : g.Closed) (hn : g.nullability = .ok n)
    (hroot : g.root.isSome) (hstuck : ¬ g.Stuck n options) :
    Raises Fault.IsRefusal (g.validate n options) := by
  obtain ⟨order, hreachable, hmem, hinside⟩ := h.reachable
  obtain ⟨selected, hdetect⟩ := exists_detectLeftRecursion hn h.firstRoots
  rw [validate, if_neg (by simpa [Option.isSome_iff_ne_none] using hroot), hreachable]
  refine (Raises.ok order).bind fun _ heq => ?_
  cases heq
  refine (Raises.forM fun id hid => validateNode_refuses hn (hinside id hid)).bind ?_
  intro _ hnodes
  refine (validateWhitespace_refuses h).bind fun _ hwhitespace => ?_
  rw [hdetect]
  refine (Raises.ok selected).bind fun _ heq => ?_
  cases heq
  cases selected with
  | nil => exact .ok _
  | cons x later =>
      have hx := lt_size_of_selected hn hdetect x (List.mem_cons_self ..)
      rcases describe_ends hn hx with ⟨-, description, hdescribe⟩ | ⟨hforever, -⟩
      · simp only [hdescribe]
        exact .error ⟨_, rfl⟩
      · have hchecked : ∀ id, g.InUse id → g.validateNode n options id = .ok () :=
          fun id huse => forM_ok hnodes id ((hmem id).mpr huse)
        exact absurd ⟨hchecked, hwhitespace, x, later, hdetect, hforever⟩ hstuck

/-- Checks that are stuck describe forever. -/
theorem Stuck.validate (hstuck : g.Stuck n options) (h : g.Closed) (hroot : g.root.isSome) :
    ∃ x, g.validate n options = .error (.crash (.endlessDescription x)) := by
  obtain ⟨hnodes, hwhitespace, x, later, hdetect, hforever⟩ := hstuck
  obtain ⟨order, hreachable, hmem, -⟩ := h.reachable
  obtain ⟨y, hdescribe⟩ : ∃ y, g.describe x = .error (.crash (.endlessDescription y)) :=
    describeWithin_forever hforever _
  have hchecked : order.forM (g.validateNode n options) = .ok () :=
    forM_of_ok fun id hid => hnodes id ((hmem id).mp hid)
  refine ⟨y, ?_⟩
  rw [Grammar.validate, if_neg (by simpa [Option.isSome_iff_ne_none] using hroot), hreachable]
  change (order.forM (g.validateNode n options) >>= fun _ => _) = _
  rw [hchecked]
  change (g.validateWhitespace >>= fun _ => _) = _
  rw [hwhitespace]
  change (g.detectLeftRecursion n >>= fun _ => _) = _
  rw [hdetect]
  change (g.describe x >>= fun _ => _) = _
  rw [hdescribe]
  rfl

/-! ## The bounds -/

/-- No walk comes to the bound on its path, and when the analysis of nullability is over, all that
    it found out has been told to those that waited for it. -/
structure BoundsSuffice (g : Grammar) : Prop where
  walks : ∀ (graph : Walk.Graph) bound roots marks, (∀ x, (graph x).isSome → x < g.size) →
    g.size < bound →
      Walk.visitAll graph bound roots marks = Walk.visitAll graph g.pathBound roots marks
  told : ∀ ids : List ExprId, (ids.foldl (Nullability.Search.leave g) (.initial g)).untold = []

theorem boundsSuffice (g : Grammar) : g.BoundsSuffice where
  walks := fun _ _ roots marks hsize hbound =>
    Walk.visitAll_bound hsize hbound (Nat.lt_succ_self g.size) roots marks
  told := fun ids =>
    Nullability.Search.foldl_leave_told ids (.initial g)
      (Nullability.Search.sound_initial g).values_size rfl

/-! ## Preparation -/

/-- Preparation ends with a report, or refuses the grammar. -/
def Answers (options : PrepareOptions) (g : Grammar) : Prop :=
  (∃ report g', prepare options g = .ok report g') ∨
    ∃ error g', prepare options g = .error (.grammar error) g'

/-- Left recursion is not to be broken, and once references are resolved the checks are stuck. -/
def Stranded (options : PrepareOptions) (g : Grammar) : Prop :=
  options.leftRecursion.inPlace = false ∧ g.root.isSome ∧ ∃ count g₁ n,
    resolveReferences options.referenceChainLimit g = .ok count g₁ ∧ g₁.nullability = .ok n ∧
      g₁.Stuck n options

/-- Checks and mark end with a report or refuse the grammar, or the checks are stuck. -/
theorem checkAndMark_ends (h : g.Closed) (hroot : g.root.isSome) (hn : g.nullability = .ok n)
    (options : PrepareOptions) (references : Nat) (wrapped : List ExprId) :
    (g.Stuck n options ∧ ∃ x, checkAndMark options references wrapped g =
      .error (.crash (.endlessDescription x)) g) ∨
    (¬ g.Stuck n options ∧
      ((∃ report g', checkAndMark options references wrapped g = .ok report g') ∨
        ∃ error, checkAndMark options references wrapped g = .error (.grammar error) g)) := by
  have hfails : ∀ e, g.validate n options = .error e →
      checkAndMark options references wrapped g = .error e g := fun e hinvalid =>
    (Edit.bind_of_ok (Edit.reading_of_ok hn)).trans
      (Edit.bind_of_error (Edit.reading_of_error hinvalid))
  by_cases hstuck : g.Stuck n options
  · obtain ⟨x, hinvalid⟩ := hstuck.validate h hroot
    exact Or.inl ⟨hstuck, x, hfails _ hinvalid⟩
  · refine Or.inr ⟨hstuck, ?_⟩
    have hrefuses := validate_refuses h hn hroot hstuck
    cases hvalid : g.validate n options with
    | ok _ => exact Or.inl ⟨_, _, checkAndMark_of_valid hn hvalid⟩
    | error e =>
        obtain ⟨error, rfl⟩ := hrefuses e hvalid
        exact Or.inr ⟨error, hfails _ hvalid⟩

/-- Preparation answers unless it is stranded. -/
theorem prepare_ends (h : g.Closed) (options : PrepareOptions) :
    (g.Stranded options ∧
      ∃ x g', prepare options g = .error (.crash (.endlessDescription x)) g') ∨
    (¬ g.Stranded options ∧ g.Answers options) := by
  cases hroot : g.root with
  | none =>
      refine Or.inr ⟨fun hstranded => ?_, Or.inr ⟨_, _, prepare_rootless hroot⟩⟩
      have hsome := hstranded.2.1
      rw [hroot] at hsome
      cases hsome
  | some root =>
      have hsome : g.root.isSome := by rw [hroot]; rfl
      rcases resolveReferences_answers h options.referenceChainLimit with
        ⟨count, g₁, hresolve, hclosed, hkept⟩ | ⟨e, hresolve⟩
      swap
      · refine Or.inr ⟨fun hstranded => ?_, Or.inr ⟨e, g, ?_⟩⟩
        · obtain ⟨-, -, count, g₁, n, hok, -⟩ := hstranded
          cases hresolve.symm.trans hok
        · rw [prepare_eq hsome]
          exact Edit.bind_of_error hresolve
      obtain ⟨before, hbefore⟩ := hclosed.nullability
      obtain ⟨wrapped, g₂, hbreak, hclosed₂, hroot₂, hbroken, hleft⟩ :=
        breakAsAsked_answers hclosed hbefore options
      obtain ⟨after, hafter⟩ := hclosed₂.nullability
      have hsome₂ : g₂.root.isSome := by rw [hroot₂, hkept, hsome]
      rw [Answers, prepare_eq_checkAndMark hsome hresolve hbefore hbreak]
      rcases checkAndMark_ends hclosed₂ hsome₂ hafter options count wrapped with
        ⟨hstuck, x, hcrash⟩ | ⟨hstuck, hanswers⟩
      · -- breaking would have left nothing to select
        have hinPlace : options.leftRecursion.inPlace = false := by
          by_contra hask
          obtain ⟨n, hn, hnone⟩ := hbroken (by simpa using hask)
          obtain ⟨x, later, hdetect, -⟩ := hstuck.cycle
          cases hn.symm.trans hafter
          cases hnone.symm.trans hdetect
        refine Or.inl ⟨⟨hinPlace, hsome, count, g₁, after, hresolve, ?_⟩, x, g₂, hcrash⟩
        rw [← hleft hinPlace]
        exact ⟨hafter, hstuck⟩
      · refine Or.inr ⟨fun hstranded => ?_,
          hanswers.imp_right fun ⟨error, herror⟩ => ⟨error, g₂, herror⟩⟩
        obtain ⟨hinPlace, -, count', _, n, hresolve', hn, hstuck'⟩ := hstranded
        cases hresolve.symm.trans hresolve'
        cases hleft hinPlace
        cases hafter.symm.trans hn
        exact hstuck hstuck'

/-- Preparation of a closed grammar comes to a report or an error, unless it is stranded: then it
    describes a circle of operands, and no number of steps is enough for that.  Descriptions of
    other nodes end, and no other pass is cut off. -/
theorem prepare_answers (hclosed : g.Closed) :
    (∀ options, g.Answers options ↔ ¬ g.Stranded options) ∧
    (∀ options, g.Stranded options →
      ∃ x g', prepare options g = .error (.crash (.endlessDescription x)) g') ∧
    (∀ g' : Grammar, g'.Closed → ∀ id < g'.size,
      (∃ description, g'.describe id = .ok description) ↔ ¬ g'.DescribedForever id) ∧
    (∀ g' : Grammar, ∀ id, g'.DescribedForever id → ∀ steps,
      ∃ x, g'.describeWithin steps id = .error (.crash (.endlessDescription x))) ∧
    ∀ g' : Grammar, g'.BoundsSuffice := by
  refine ⟨fun options => ?_, fun options hstranded => ?_, fun g' hclosed' id hid => ?_,
    fun g' id => describeWithin_forever, boundsSuffice⟩
  · rcases prepare_ends hclosed options with ⟨hstranded, x, g', hcrash⟩ | ⟨hfree, hanswers⟩
    · refine iff_of_false ?_ (not_not_intro hstranded)
      rintro (⟨report, g'', hok⟩ | ⟨e, g'', herror⟩)
      · cases hcrash.symm.trans hok
      · cases hcrash.symm.trans herror
    · exact iff_of_true hanswers hfree
  · rcases prepare_ends hclosed options with ⟨-, hcrash⟩ | ⟨hfree, -⟩
    · exact hcrash
    · exact absurd hstranded hfree
  · obtain ⟨n, hn⟩ := hclosed'.nullability
    rcases describe_ends hn hid with ⟨hends, hok⟩ | ⟨hforever, x, herror⟩
    · exact iff_of_true hok hends
    · refine iff_of_false ?_ (not_not_intro hforever)
      rintro ⟨description, hok⟩
      cases herror.symm.trans hok

/-- A token of itself, with or without a name. -/
def selfToken (name : Option String) : Grammar :=
  { nodes := #[{ name, shape := .token 0, flags := {} }], root := some 0 }

theorem closed_selfToken (name : Option String) : (selfToken name).Closed :=
  .of_nodes .nil (by simp [selfToken, entryPoints, ruleIds, sortedRules, size])
    (by simp [selfToken, size, Shape.children])

theorem prepare_named_selfToken :
    prepare { leftRecursion := { inPlace := false } } (selfToken (some "t")) =
      .error (.grammar (.unbrokenLeftRecursion "t")) (selfToken (some "t")) := by
  cbv

theorem prepare_broken_selfToken :
    prepare {} (selfToken none) = .ok ⟨0, [0], 0⟩
      { selfToken none with
        nodes := #[.ofShape (.leftRecursive 1 false), .ofShape (.token 0)], prepared := true } := by
  cbv

/-- Under a name it is refused by that name, and broken it is a grammar in order. -/
theorem prepare_answers_selfToken :
    (selfToken (some "t")).Closed ∧
      ¬ (selfToken (some "t")).Stranded { leftRecursion := { inPlace := false } } ∧
      (selfToken none).Closed ∧ ¬ (selfToken none).Stranded {} := by
  have hnamed := closed_selfToken (some "t")
  have hbare := closed_selfToken none
  refine ⟨hnamed, ?_, hbare, ?_⟩
  · exact ((prepare_answers hnamed).1 _).mp (Or.inr ⟨_, _, prepare_named_selfToken⟩)
  · exact ((prepare_answers hbare).1 _).mp (Or.inl ⟨_, _, prepare_broken_selfToken⟩)

/-- Without a name there is nothing to call it. -/
theorem not_answers_selfToken :
    (selfToken none).Closed ∧
      ¬ (selfToken none).Answers { leftRecursion := { inPlace := false } } ∧
      ∀ steps, ∃ x, (selfToken none).describeWithin steps 0 =
        .error (.crash (.endlessDescription x)) := by
  have hself : (selfToken none).DescribedBy 0 0 := ⟨_, rfl, rfl, Or.inl rfl⟩
  refine ⟨closed_selfToken none, ?_, describeWithin_forever ⟨0, .refl, .single hself⟩⟩
  have hcrash : prepare { leftRecursion := { inPlace := false } } (selfToken none) =
      .error (.crash (.endlessDescription 0)) (selfToken none) := by
    cbv
  rintro (⟨report, g', hok⟩ | ⟨e, g', herror⟩)
  · cases hcrash.symm.trans hok
  · cases hcrash.symm.trans herror

end Grammar

end Packrat
