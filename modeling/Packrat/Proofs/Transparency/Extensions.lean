import Packrat.Proofs.Transparency.Outcomes

/-! # Memoization and extensions

    Custom expressions read and write slots.  A key tells what the slots hold, so an outcome that is
    kept adds to slots what its match would add again.  It tells of an installed seed where it ends
    and not what it adds to slots, so one key may stand for outcomes that add different things.

    Where nothing below a boundary writes slots, seeds add nothing to them, and two parses with the
    same slots agree on where the match ends, whatever they memoize, as long as no program looks at
    more of the state than the position and the slots.  Where there are no custom expressions, slots
    do not matter either (`parseWith_ends_alike`). -/

namespace Packrat

open Relation Engine Matching

variable {g : Grammar} {c c' : Config} {source : String} {root : ExprId} {r r' : ParseResult}

/-! ## Without extensions -/

/-- Compares where matches end, and nothing else. -/
def Coupling.ends (g : Grammar) (text : Text) : Coupling :=
  .loose g text 0 false False (fun _ _ => True) (fun _ => trivial) fun _ _ => trivial

/-- Without custom expressions, two parses with a result end alike, whatever their configurations
    are. -/
theorem parseWith_ends_alike (hroot : g.root = some root) (hfree : g.CustomFree root)
    (h : (parseWith g c source).outcome = .ok r) (h' : (parseWith g c' source).outcome = .ok r') :
    r.matched = r'.matched ∧ r.stop = r'.stop := by
  obtain ⟨b, m, hrun, hconclude, -⟩ := parseWith_ok hroot h
  obtain ⟨b', m', hrun', hconclude', -⟩ := parseWith_ok hroot h'
  have hadmits : (Coupling.ends g (.ofString source)).Admits root := ⟨nofun, nofun, fun _ => hfree⟩
  have hbegins : ∀ c, (Coupling.ends g (.ofString source)).Begins c := fun c =>
    ⟨nofun, nofun, fun _ _ _ _ => trivial⟩
  obtain ⟨n, k, hfollows, hcoupled⟩ := Coupling.invoke_initial (hbegins c) hadmits hrun
  obtain ⟨n', k', hfollows', hcoupled'⟩ := Coupling.invoke_initial (hbegins c') hadmits hrun'
  -- both are followed by the parse without slots and without a memo table
  have hone : EStateM.Result.ok b n = .ok b' n' :=
    (hfollows (max k k') (le_max_left k k')).symm.trans (hfollows' (max k k') (le_max_right k k'))
  cases hone
  have hstop : m.state.stop = m'.state.stop :=
    hcoupled.state.stop.trans hcoupled'.state.stop.symm
  obtain ⟨-, hend, hmatched, -⟩ := conclude_ok hconclude
  obtain ⟨-, hend', hmatched', -⟩ := conclude_ok hconclude'
  have hends : r.stop = r'.stop := by rw [hend, hend', hstop]
  exact ⟨by rw [hmatched, hmatched', hends], hends⟩

/-! ## With extensions -/

/-- Compares where matches end, in parses with the same slots. -/
def Coupling.extended (g : Grammar) (text : Text) : Coupling :=
  .loose g text 0 true False (fun _ _ => True) (fun _ => trivial) fun _ _ => trivial

/-- Whatever two parses of a text memoize, and whatever their limits are: if they have the same
    slots, each with a print that tells what it holds, programs are discreet and no boundary writes
    slots, they agree on whether and where the root matched. -/
theorem parseWith_slots (hroot : g.root = some root) (hdiscreet : g.Discreet root)
    (hsilent : g.SilentBoundaries root) (hkinds : .quietNames ∉ c.slots)
    (hslots : c'.slots = c.slots)
    (h : (parseWith g c source).outcome = .ok r) (h' : (parseWith g c' source).outcome = .ok r') :
    r.matched = r'.matched ∧ r.succeeded = r'.succeeded ∧ r.stop = r'.stop := by
  obtain ⟨b, m, hrun, hconclude, -⟩ := parseWith_ok hroot h
  obtain ⟨b', m', hrun', hconclude', -⟩ := parseWith_ok hroot h'
  let C := Coupling.extended g (.ofString source)
  have hadmits : C.Admits root := ⟨fun _ => hsilent, fun _ => hdiscreet, nofun⟩
  have hbegins : C.Begins c := ⟨fun _ => hkinds, nofun, fun _ _ _ _ => trivial⟩
  have hbegins' : C.Begins c' := ⟨fun _ => hslots ▸ hkinds, nofun, fun _ _ _ _ => trivial⟩
  obtain ⟨n, k, hfollows, hcoupled⟩ := Coupling.invoke_initial hbegins hadmits hrun
  obtain ⟨n', k', hfollows', hcoupled'⟩ := Coupling.invoke_initial hbegins' hadmits hrun'
  have hstart : C.start c' = C.start c := by
    rw [Coupling.start, Coupling.start, hslots]
  rw [hstart] at hfollows'
  -- with enough nesting for both, the parse that follows them is the same
  have hone : EStateM.Result.ok b n = .ok b' n' :=
    (hfollows (max k k') (le_max_left k k')).symm.trans (hfollows' (max k k') (le_max_right k k'))
  cases hone
  have hstop : m.state.stop = m'.state.stop :=
    hcoupled.state.stop.trans hcoupled'.state.stop.symm
  obtain ⟨hsucceeded, hend, hmatched, -⟩ := conclude_ok hconclude
  obtain ⟨hsucceeded', hend', hmatched', -⟩ := conclude_ok hconclude'
  have hends : r.stop = r'.stop := by rw [hend, hend', hstop]
  exact ⟨by rw [hmatched, hmatched', hends], hsucceeded.trans hsucceeded'.symm, hends⟩

/-- Declares the name at the current position. -/
def declaration : Custom :=
  { description := "declaration", program := [.pushRun 0 ['n']] }

/-- Moves on if the first list of names has the next character. -/
def useDeclared (text : Text) (s : ParseState) : List Instr :=
  match s.slots[0]? with
  | some (Slot.names _ _ entries) =>
      if entries.contains (text.slice s.stop (s.stop + 1)) then [.advance 1] else [.fail]
  | _ => [.fail]

def declaredUse : Custom :=
  { description := "use", program := [.observe useDeclared] }

/-- A name is declared; after the colon follow uses of it, joined by signs. -/
def declared : Grammar :=
  { nodes := #[{ shape := .sequence [1, 2, 3], flags := .rule },
      .ofShape (.custom declaration []), .ofShape (.literal ":"),
      { shape := .leftRecursive 4 false, flags := .rule }, .ofShape (.choice [5, 7]),
      .ofShape (.sequence [3, 6, 7]), .ofShape (.literal "+"), .ofShape (.custom declaredUse [])]
    root := some 0
    prepared := true }

/-- A declaration writes a name and observes nothing. -/
theorem within_declaration {instr : Instr} (h : instr.Within declaration.program) :
    instr = .pushRun 0 ['n'] :=
  List.mem_singleton.mp (h.mem (by decide))

/-- A use looks a name up, and then moves on or fails. -/
theorem within_declaredUse {instr : Instr} (h : instr.Within declaredUse.program) :
    instr = .observe useDeclared ∨ instr = .advance 1 ∨ instr = .fail := by
  cases h with
  | here h => exact Or.inl (List.mem_singleton.mp h)
  | onMatch h _ => cases List.mem_singleton.mp h
  | onFail h _ => cases List.mem_singleton.mp h
  | body h _ => cases List.mem_singleton.mp h
  | chosen h text s hwithin =>
      cases List.mem_singleton.mp h
      have hchosen : useDeclared text s = [.advance 1] ∨ useDeclared text s = [.fail] := by
        rw [useDeclared]
        split
        · split
          · exact Or.inl rfl
          · exact Or.inr rfl
        · exact Or.inr rfl
      rcases hchosen with hchosen | hchosen <;> rw [hchosen] at hwithin
      · exact Or.inr (Or.inl (List.mem_singleton.mp (hwithin.mem (by decide))))
      · exact Or.inr (Or.inr (List.mem_singleton.mp (hwithin.mem (by decide))))

/-- The custom nodes of the grammar of declarations are these two. -/
theorem custom_declared {i : ExprId} {spec : Custom} {children : List ExprId}
    (h : declared.shape? i = some (.custom spec children)) :
    i = 1 ∧ spec = declaration ∨ i = 7 ∧ spec = declaredUse := by
  match i with
  | 0 | 2 | 3 | 4 | 5 | 6 | _ + 8 => cases h
  | 1 =>
      cases h
      exact Or.inl ⟨rfl, rfl⟩
  | 7 =>
      cases h
      exact Or.inr ⟨rfl, rfl⟩

/-- Both choose by the text, the position and the slots. -/
theorem discreet_declared : declared.Discreet 0 := by
  rintro instr ⟨i, spec, children, -, hshape, hwithin⟩
  obtain ⟨-, rfl⟩ | ⟨-, rfl⟩ := custom_declared hshape
  · obtain rfl := within_declaration hwithin
    exact trivial
  · obtain rfl | rfl | rfl := within_declaredUse hwithin
    · intro text s t hstop hslots
      rw [useDeclared, useDeclared, hstop, hslots]
    · exact trivial
    · exact trivial

/-- The boundary is the rule 3, from which the declaration is out of reach. -/
theorem silentBoundaries_declared : declared.SilentBoundaries 0 := by
  have hboundary : ∀ i, declared.isBoundary i = true → i = 3 := by
    intro i hi
    match i with
    | 3 => rfl
    | 0 | 1 | 2 | 4 | 5 | 6 | 7 | _ + 8 => cases hi
  -- no program names an expression, so all that is invoked are children
  have hclosed : ∀ i ∈ [3, 4, 5, 6, 7], ∀ target, declared.Invokes i target →
      target ∈ [3, 4, 5, 6, 7] := by
    have hchildren : ∀ i ∈ [3, 4, 5, 6, 7], ∀ child ∈ (declared.children? i).getD [],
        child ∈ [3, 4, 5, 6, 7] := by decide
    rintro i hi target ⟨shape, hshape, hinvokes⟩
    cases hinvokes with
    | child hchild =>
        refine hchildren i hi target ?_
        rw [Grammar.children?, hshape]
        exact hchild
    | named hwithin =>
        obtain ⟨-, rfl⟩ | ⟨-, rfl⟩ := custom_declared hshape
        · cases within_declaration hwithin
        · obtain h | h | h := within_declaredUse hwithin <;> cases h
  rintro i - hi instr ⟨j, spec, children, hreach, hshape, hwithin⟩
  obtain rfl := hboundary i hi
  have hbelow := Grammar.mem_of_invokes hclosed (by decide) hreach
  obtain ⟨rfl, -⟩ | ⟨-, rfl⟩ := custom_declared hshape
  · exact absurd hbelow (by decide)
  · obtain rfl | rfl | rfl := within_declaredUse hwithin <;> rfl

theorem parseWith_slots_declared :
    ∃ r r',
      (parseWith declared { memoization := .none, slots := [.names] } "n:n+n").outcome = .ok r ∧
      (parseWith declared { memoization := .all, slots := [.names] } "n:n+n").outcome = .ok r' ∧
      r.stop = 5 ∧ r.stop = r'.stop := by
  obtain ⟨r, h, hstop⟩ := exists_of_toOption (f := ParseResult.stop) (b := 5)
    (x := (parseWith declared { memoization := .none, slots := [.names] } "n:n+n").outcome)
    (by decide +kernel)
  obtain ⟨r', h', -⟩ := exists_of_toOption (f := ParseResult.stop) (b := 5)
    (x := (parseWith declared { memoization := .all, slots := [.names] } "n:n+n").outcome)
    (by decide +kernel)
  exact ⟨r, r', h, h', hstop,
    (parseWith_slots rfl discreet_declared silentBoundaries_declared (by decide) (by rfl)
      h h').2.2⟩

/-- The left-recursive rule 4 is entered twice at the same place, as in `floored`.  Under the floor
    that the first choice sets, the letter adds 1 to the counter; without it, the cluster adds 2.
    Both seeds end at the same position, and the rule 12 asks whether the one that it replayed added
    2. -/
def counted : Grammar :=
  { nodes := #[{ shape := .choice [1, 4], flags := .rule }, .ofShape (.sequence [2, 3]),
      .ofShape (.minPrecedence 4 11), .ofShape (.literal "!"),
      { shape := .leftRecursive 5 false, flags := .rule }, .ofShape (.choice [6, 9, 11]),
      .ofShape (.sequence [7, 8]), .ofShape (.minPrecedence 12 0), .ofShape (.literal "+"),
      .ofShape (.cluster [⟨10, .once, [10]⟩]),
      .ofShape (.custom { description := "two", program := [.take ['n'], .increase 0 2] } []),
      .ofShape (.custom { description := "one", program := [.take ['n'], .increase 0 1] } []),
      { shape := .sequence [4, 13], flags := .rule },
      .ofShape (.custom
        { description := "check", nullable := .yes, program := [.countAtLeast 0 2] } [])]
    root := some 0 }

/-- Preparation leaves the counting grammar as it is. -/
theorem prepare_counted :
    Grammar.prepare {} counted = .ok ⟨0, [], 1⟩ { counted with prepared := true } := by
  cbv

/-- Where boundaries write slots, memoization changes where the root of a prepared grammar matches,
    discreet as its programs are: without it the text is matched, and with it only its first
    character. -/
theorem matched_counted_ne :
    ∃ g report r r', Grammar.prepare {} counted = .ok report g ∧ g.Discreet 0 ∧
      (parseWith g { memoization := .none, slots := [.counter] } "n+").outcome = .ok r ∧
      (parseWith g { memoization := .rules, slots := [.counter] } "n+").outcome = .ok r' ∧
      r.matched ≠ r'.matched ∧ r.stop ≠ r'.stop := by
  let ends := fun r : ParseResult => (r.matched, r.stop)
  obtain ⟨r, h, hr⟩ := exists_of_toOption (f := ends) (b := (true, 2))
    (x := (parseWith { counted with prepared := true }
      { memoization := .none, slots := [.counter] } "n+").outcome)
    (by decide +kernel)
  obtain ⟨r', h', hr'⟩ := exists_of_toOption (f := ends) (b := (false, 1))
    (x := (parseWith { counted with prepared := true }
      { memoization := .rules, slots := [.counter] } "n+").outcome)
    (by decide +kernel)
  obtain ⟨hmatched, hstop⟩ := Prod.mk.inj hr
  obtain ⟨hmatched', hstop'⟩ := Prod.mk.inj hr'
  refine ⟨_, _, r, r', prepare_counted, ?_, h, h', ?_, ?_⟩
  · exact Grammar.discreet_of_plain (by simp [counted, Expr.ofShape, Instr.isPlain])
  · rw [hmatched, hmatched']
    decide
  · rw [hstop, hstop']
    decide

end Packrat
