import Packrat.Proofs.Relabeling.Shapes
import Packrat.Proofs.WalkOnce

/-! # Where references lead

    A reference leads to what its name stands for, and a chain of them on to the next node that is
    none, if it gets there within the limit (`ResolvesTo`).  A chain that does not BREAKS in one of
    three ways (`Breaks`), and the way in which it breaks is the fault that following it ends with
    (`referenceTarget_ends`).  No chain does both (`Breaks.not_resolvesTo`). -/

namespace Packrat.Grammar

variable {g : Grammar} {limit hops : Nat} {id last target : ExprId} {name first : String}

/-! ## Chains -/

/-- The nodes in the order in which a walk over all of them meets them. -/
def walkOrder (g : Grammar) : List ExprId :=
  Walk.entered (Walk.visitAll g.children? g.pathBound g.ids []).1

/-- What a name stands for: a rule, or else the first node of that name. -/
def meaning? (g : Grammar) (name : String) : Option ExprId :=
  (g.rule? name).or
    (g.walkOrder.find? fun id => (g.node? id).any fun e => e.name == some name)

/-- So many references in a row lead from one node to another. -/
inductive Leads (g : Grammar) : Nat → ExprId → ExprId → Prop
  | here (id : ExprId) : Leads g 0 id id
  | hop {hops : Nat} {id next last : ExprId} {name : String}
      (hreference : g.shape? id = some (.reference name)) (hnext : g.meaning? name = some next)
      (hrest : Leads g hops next last) : Leads g (hops + 1) id last

/-- References lead to a node that is none, within the limit. -/
structure ResolvesTo (g : Grammar) (limit : Nat) (id target : ExprId) : Prop where
  leads : ∃ hops ≤ limit, g.Leads hops id target
  inside : target < g.size
  final : g.isReference target = false

/-- A chain of references comes to no such node, for the given reason. -/
inductive Breaks (g : Grammar) (limit : Nat) (id : ExprId) : Fault → Prop
  | unknown {hops : Nat} {last : ExprId} {name : String} (hleads : g.Leads hops id last)
      (hhops : hops < limit) (hlast : g.shape? last = some (.reference name))
      (hmeaning : g.meaning? name = none) :
      Breaks g limit id (.grammar (.unresolvedReference name))
  | tooLong {last : ExprId} {first : String} (hleads : g.Leads limit id last)
      (hlast : g.isReference last = true) (hfirst : g.shape? id = some (.reference first)) :
      Breaks g limit id (.grammar (.referenceChainTooLong first limit))
  | outside {hops : Nat} {last : ExprId} (hleads : g.Leads hops id last) (hhops : hops ≤ limit)
      (hlast : g.shape? last = none) : Breaks g limit id (.crash (.noSuchExpr last))

/-- What an edge or an entry point refers to. -/
def Held (g : Grammar) (v : ExprId) : Prop :=
  v ∈ g.entryPoints ∨ ∃ u, g.Child u v

/-! ## The table of names -/

theorem lookup_insertRule {r : String × ExprId} {rules : List (String × ExprId)}
    (hnew : rules.lookup r.1 = none) (name : String) :
    (insertRule r rules).lookup name = (r :: rules).lookup name := by
  induction rules with
  | nil => rfl
  | cons s rest ih =>
      rw [insertRule]
      split
      · obtain ⟨hne, hrest⟩ : (r.1 == s.1) = false ∧ rest.lookup r.1 = none := by
          rw [List.lookup_cons] at hnew
          split at hnew
          · cases hnew
          · rename_i hne
            exact ⟨hne, hnew⟩
        rw [List.lookup_cons, ih hrest, List.lookup_cons, List.lookup_cons, List.lookup_cons]
        -- the two names differ, so at most one of them is the one looked up
        cases hs : name == s.1 with
        | false => rfl
        | true =>
            have hr : (name == r.1) = false := by
              rw [beq_iff_eq.mp hs, beq_eq_false_iff_ne, ne_comm, ← beq_eq_false_iff_ne]
              exact hne
            rw [hr]
      · rfl

/-- The order of the rules does not matter to what their names stand for. -/
theorem lookup_sortedRules (hrules : (g.rules.map Prod.fst).Nodup) (name : String) :
    g.sortedRules.lookup name = g.rule? name := by
  rw [sortedRules, rule?]
  generalize g.rules = rules at hrules
  induction rules generalizing name with
  | nil => rfl
  | cons r rest ih =>
      obtain ⟨hnew, hrest⟩ := List.nodup_cons.mp hrules
      have hnone : (rest.foldr insertRule []).lookup r.1 = none := by
        rw [ih _ hrest, List.lookup_eq_none_iff]
        intro s hs
        rw [bne_iff_ne]
        exact fun heq => hnew (heq ▸ List.mem_map_of_mem hs)
      rw [List.foldr_cons, lookup_insertRule hnone, List.lookup_cons, List.lookup_cons, ih _ hrest]

theorem lookup_names (g : Grammar) (ids : List ExprId) (name : String) :
    (ids.filterMap fun id => (g.node? id).bind fun e => e.name.map (·, id)).lookup name =
      ids.find? fun id => (g.node? id).any fun e => e.name == some name := by
  induction ids with
  | nil => rfl
  | cons id rest ih =>
      rw [List.filterMap_cons, List.find?_cons]
      cases hnode : g.node? id with
      | none => exact ih
      | some e =>
          cases hname : e.name with
          | none => simpa [hname] using ih
          | some other =>
              have hsame : (some other == some name) = (name == other) := by
                rw [Bool.eq_iff_iff, beq_iff_eq, beq_iff_eq, Option.some.injEq, eq_comm]
              simp only [Option.bind_some, hname, Option.map_some, List.lookup_cons, ih,
                Option.any_some, hsame]

/-- The table of names gives every name its meaning. -/
theorem lookup_nameTable (hrules : (g.rules.map Prod.fst).Nodup) {events : List Walk.Event}
    (h : g.walk g.ids = .ok events) (name : String) :
    (g.nameTable events).lookup name = g.meaning? name := by
  rw [nameTable, List.lookup_append, lookup_sortedRules hrules, lookup_names, meaning?, walkOrder,
    (walkOver_eq_ok.mp h).1]

/-! ## Following a chain -/

theorem isReference_of_shape? (h : g.shape? id = some (.reference name)) :
    g.isReference id = true := by
  rw [isReference, h]
  rfl

theorem Leads.snoc {next : ExprId} (h : g.Leads hops id last)
    (hreference : g.shape? last = some (.reference name)) (hnext : g.meaning? name = some next) :
    g.Leads (hops + 1) id next := by
  induction h with
  | here => exact .hop hreference hnext (.here next)
  | hop hfirst hmeaning _ ih => exact .hop hfirst hmeaning (ih hreference)

/-- A chain of references starts with one unless it is no chain at all. -/
theorem Leads.isReference (h : g.Leads hops id last) (hlast : g.isReference last = true) :
    g.isReference id = true := by
  cases h with
  | here => exact hlast
  | hop hreference => exact isReference_of_shape? hreference

/-- What is no reference leads to itself alone. -/
theorem Leads.eq_self (h : g.Leads hops id last) (hid : g.isReference id = false) : last = id := by
  cases h with
  | here => rfl
  | hop hreference => cases (isReference_of_shape? hreference).symm.trans hid

/-- What is no reference ends the chain, unless it is outside the grammar. -/
theorem followReference_stops {names : List (String × ExprId)} {start : ExprId} {made room : Nat}
    (hmade : g.Leads made start id) (hlimit : made ≤ limit) (hid : g.isReference id = false) :
    match g.followReference names first limit room id with
    | .ok target => g.ResolvesTo limit start target
    | .error e => g.Breaks limit start e := by
  cases hs : g.shape? id with
  | some s =>
      have hinside := lt_size_of_shape? hs
      rw [followReference_eq hinside hid]
      exact ⟨⟨made, hlimit, hmade⟩, hinside, hid⟩
  | none =>
      rw [followReference.eq_def]
      simp only [hs]
      exact .outside hmade hlimit hs

/-- A chain ends at a node that is no reference, or with the fault of the way in which it breaks. -/
theorem followReference_ends {names : List (String × ExprId)}
    (hnames : ∀ name, names.lookup name = g.meaning? name) {start : ExprId} {made room : Nat}
    (hmade : g.Leads made start id) (hlimit : made + room = limit)
    (hfirst : g.isReference start = true → g.shape? start = some (.reference first)) :
    match g.followReference names first limit room id with
    | .ok target => g.ResolvesTo limit start target
    | .error e => g.Breaks limit start e := by
  induction room generalizing made id with
  | zero =>
      obtain rfl : made = limit := hlimit
      cases hid : g.isReference id with
      | false => exact followReference_stops hmade le_rfl hid
      | true =>
          obtain ⟨name, hs⟩ := shape?_of_isReference hid
          rw [followReference.eq_def]
          simp only [hs]
          exact .tooLong hmade hid (hfirst (hmade.isReference hid))
  | succ room ih =>
      cases hid : g.isReference id with
      | false => exact followReference_stops hmade (by omega) hid
      | true =>
          obtain ⟨name, hs⟩ := shape?_of_isReference hid
          rw [followReference.eq_def]
          simp only [hs, hnames]
          cases hmeaning : g.meaning? name with
          | none => exact .unknown hmade (by omega) hs hmeaning
          | some next => exact ih (hmade.snoc hs hmeaning) (by omega)

theorem referenceTarget_ends {names : List (String × ExprId)}
    (hnames : ∀ name, names.lookup name = g.meaning? name) (limit : Nat) (id : ExprId) :
    match g.referenceTarget names limit id with
    | .ok target => g.ResolvesTo limit id target
    | .error e => g.Breaks limit id e := by
  rw [referenceTarget]
  refine followReference_ends hnames (.here id) (Nat.zero_add limit) fun hid => ?_
  obtain ⟨name, hs⟩ := shape?_of_isReference hid
  simp only [hs]

/-! ## Both ways at once -/

/-- Of two chains from one node the shorter one is part of the longer one. -/
theorem Leads.rest {hops' : Nat} {last' : ExprId} (h : g.Leads hops id last)
    (h' : g.Leads hops' id last') (hle : hops ≤ hops') : g.Leads (hops' - hops) last last' := by
  induction h generalizing hops' with
  | here => exact h'
  | @hop hops id next last name hreference hnext _ ih =>
      cases h' with
      | here => cases hle
      | hop hreference' hnext' hrest' =>
          cases hreference.symm.trans hreference'
          cases hnext.symm.trans hnext'
          rw [Nat.add_sub_add_right]
          exact ih hrest' (Nat.le_of_succ_le_succ hle)

/-- A chain that breaks does not resolve. -/
theorem Breaks.not_resolvesTo {e : Fault} (h : g.Breaks limit id e) :
    ¬ g.ResolvesTo limit id target := by
  rintro ⟨⟨hops', hhops', hleads'⟩, hinside, hfinal⟩
  -- a chain that does not go on within the limit ends at the target if anything resolves
  have hend : ∀ {hops last}, g.Leads hops id last →
      (∀ k x, hops + k ≤ limit → g.Leads k last x → x = last) → last = target := by
    intro hops last hleads hstuck
    rcases Nat.le_total hops hops' with hle | hle
    · exact (hstuck _ _ (by omega) (hleads.rest hleads' hle)).symm
    · exact (hleads'.rest hleads hle).eq_self hfinal
  cases h with
  | unknown hleads hhops hlast hmeaning =>
      have heq := hend hleads fun k x _ hrest => by
        cases hrest with
        | here => rfl
        | hop hreference hnext =>
            cases hlast.symm.trans hreference
            cases hmeaning.symm.trans hnext
      cases (isReference_of_shape? hlast).symm.trans (heq ▸ hfinal)
  | tooLong hleads hlast =>
      have heq := hend hleads fun k x hk hrest => by
        obtain rfl : k = 0 := by omega
        cases hrest
        rfl
      cases hlast.symm.trans (heq ▸ hfinal)
  | outside hleads _ hlast =>
      have heq := hend hleads fun k x _ hrest => by
        cases hrest with
        | here => rfl
        | hop hreference => cases hlast.symm.trans hreference
      obtain ⟨e, he⟩ := node?_of_lt_size hinside
      cases hlast.symm.trans (heq ▸ shape?_of_node? he)

end Packrat.Grammar
