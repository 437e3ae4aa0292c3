import Packrat.Proofs.Protocol.Invocation
import Packrat.Proofs.Transparency.Outcomes

/-! # What a parse tells

    A parse asks for its root at the start of the text, with nothing seeded.  What the root tells is
    what the result is made of. -/

namespace Packrat

open Matching Engine

/-- What is made of what the root found in a text. -/
structure ParseResult.Shows (r : ParseResult) (text : Text) (o : Option Found) : Prop where
  succeeded : r.succeeded = o.isSome
  stop : r.stop = (o.map Found.stop).getD 0
  matched : r.matched = decide (o.map Found.stop = some text.length)
  tree : r.tree = .root 0 r.stop ((o.map Found.nodes).getD [])

/-- A parse that gave a result tells what its root does. -/
theorem Protocol.Serves.shows {π : Protocol} {ask : Scope → ExprId → Nat → Prop} {g : Grammar}
    {c : Config} {source : String} {root : ExprId} {r : ParseResult} (hgrammar : π.grammar = g)
    (hserves : π.Serves ask (invoke ⟨g, .ofString source, c⟩ c.maxDepth)
      (invoke ⟨g, .ofString source, c⟩ c.maxDepth))
    (hkeeps : π.Keeps (.initial c)) (hask : ask (Machine.initial c).state.scope root 0)
    (hroot : g.root = some root) (h : (parseWith g c source).outcome = .ok r) :
    ∃ o, π.tell (Machine.initial c).state.scope root 0 o ∧ r.Shows (.ofString source) o := by
  obtain ⟨b, m, hrun, hconclude, -⟩ := parseWith_ok hroot h
  obtain ⟨⟨-, htell⟩, -, hanswer⟩ :=
    (hserves.asked (hgrammar ▸ ready_initial g c) hkeeps hask).answer hrun
  obtain ⟨hsucceeded, hstop, hmatched, htree, -⟩ := conclude_ok hconclude
  refine ⟨_, htell, ?_⟩
  cases b with
  | false =>
      have hstate : m.state = .initial c.slots := hanswer
      refine ⟨hsucceeded, hstop, hmatched, ?_⟩
      rw [htree, hstate]
      rfl
  | true =>
      refine ⟨hsucceeded, hstop, ?_, ?_⟩
      · rw [hmatched, hstop]
        simp [ParseState.outcome, ParseState.since, Bool.beq_eq_decide_eq]
      · rw [htree]
        rfl

/-- Results that show the same agree. -/
theorem ParseResult.Shows.agree {r r' : ParseResult} {text : Text} {o : Option Found}
    (h : r.Shows text o) (h' : r'.Shows text o) :
    r.matched = r'.matched ∧ r.succeeded = r'.succeeded ∧ r.stop = r'.stop ∧ r.tree = r'.tree := by
  have hstop : r.stop = r'.stop := h.stop.trans h'.stop.symm
  refine ⟨h.matched.trans h'.matched.symm, h.succeeded.trans h'.succeeded.symm, hstop, ?_⟩
  rw [h.tree, h'.tree, hstop]

end Packrat
