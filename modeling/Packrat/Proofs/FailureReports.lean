import Mathlib
import Packrat.Proofs.FailureRecords
import Packrat.Proofs.Lines
import Packrat.Proofs.Protocol.Silencing
import Packrat.Proofs.Transparency.Outcomes

/-! # What an error report says

    A text that is not matched to its end is answered with a report.  It is the farthest failure of the
    parse, unless the match got beyond it: then all that was left to expect was the end of the
    input.

    * **`Report.Tells`** — what the report of a set of failures says.
    * **`parse_report`** — the report of a parse tells the failures of the parse. -/

namespace Packrat

open Engine

variable {S : ExprId → Nat → Prop} {g : Grammar} {text : Text} {stop : Nat} {report : Report}
variable {f : Farthest} {texts : List String}

/-! ## Reports -/

/-- The report says which failures of a set are the farthest, if they are not before `stop`, and else
    that the input should have ended there.  Texts are in increasing order, so each is there once. -/
structure Report.Tells (report : Report) (S : ExprId → Nat → Prop) (g : Grammar) (text : Text)
    (stop : Nat) : Prop where
  stop_le : stop ≤ report.position
  position_le : report.position ≤ text.length
  ne_nil : report.expected ≠ []
  increasing : report.expected.Pairwise (· < ·)
  farthest : ∀ q, IsGreatest {q | ∃ id, S id q} q → stop ≤ q → report.position = q ∧
    ∀ t, t ∈ report.expected ↔ ∃ id, S id q ∧ g.describe id = .ok t
  otherwise : (∀ q, IsGreatest {q | ∃ id, S id q} q → q < stop) →
    report.position = stop ∧ report.expected = ["end of input"]
  line : report.line = 1 + (text.chars.toList.take report.position).count '\n'
  column : ∃ start, IsGreatest {s | s ≤ report.position ∧ text.StartsLine s} start ∧
    report.column = 1 + (report.position - start)

theorem sortTexts_ne_nil (h : texts ≠ []) : sortTexts texts ≠ [] := by
  obtain ⟨t, ht⟩ := List.exists_mem_of_ne_nil texts h
  exact List.ne_nil_of_mem (mem_sortTexts.mpr ht)

/-- Where the match got beyond all failures, the input should have ended. -/
theorem Report.tells_missing (hstop : stop ≤ text.length)
    (hbefore : ∀ q, IsGreatest {q | ∃ id, S id q} q → q < stop) :
    (Report.make text stop ["end of input"]).Tells S g text stop where
  stop_le := le_rfl
  position_le := hstop
  ne_nil := List.cons_ne_nil _ _
  increasing := pairwise_sortTexts _
  farthest q hq hle := absurd hle (hbefore q hq).not_ge
  otherwise _ := ⟨rfl, rfl⟩
  line := text.fst_lineCol stop
  column := text.snd_lineCol stop

/-- The farthest failures, where the match did not get beyond them. -/
theorem Farthest.Collects.tells (h : f.Collects S) (hS : ∀ id q, S id q → q ≤ text.length)
    {p : Nat} (hp : f.position = some p) (hle : stop ≤ p)
    (htexts : f.failed.mapM g.describe = .ok texts) :
    (Report.make text p texts).Tells S g text stop where
  stop_le := hle
  position_le := by
    obtain ⟨⟨id, hid⟩, -⟩ := h.isGreatest hp
    exact hS id p hid
  ne_nil := by
    obtain ⟨id, hid⟩ := List.exists_mem_of_ne_nil f.failed (h.ne_nil (by simp [hp]))
    obtain ⟨t, ht, -⟩ := exists_of_mapM_ok htexts hid
    exact sortTexts_ne_nil (List.ne_nil_of_mem ht)
  increasing := pairwise_sortTexts _
  farthest q hq _ := by
    obtain rfl := hq.unique (h.isGreatest hp)
    refine ⟨rfl, fun t => ?_⟩
    show t ∈ sortTexts texts ↔ _
    rw [mem_sortTexts, mem_of_mapM_ok htexts]
    exact exists_congr fun id => and_congr_left fun _ => h.mem_failed hp
  otherwise hbefore := absurd hle (hbefore p (h.isGreatest hp)).not_ge
  line := text.fst_lineCol p
  column := text.snd_lineCol p

/-! ## Parses -/

namespace Parser

variable {p : Parser}

/-- A report tells the failures that were collected. -/
theorem reportFor_tells (hf : f.Collects S) (hS : ∀ id q, S id q → q ≤ text.length)
    (hstop : stop ≤ text.length) (h : p.reportFor text (.farthest f) stop = .ok report) :
    report.Tells S p.grammar text stop := by
  simp only [reportFor, Failures.report, Farthest.report] at h
  cases hposition : f.position with
  | none =>
      rw [hposition] at h
      cases h
      refine Report.tells_missing hstop ?_
      rintro q ⟨⟨id, hid⟩, -⟩
      obtain ⟨q', hq'⟩ := hf.exists_position hid
      cases hposition.symm.trans hq'
  | some q =>
      rw [hposition] at h
      cases htexts : f.failed.mapM p.grammar.describe with
      | error e =>
          simp only [htexts] at h
          cases h
      | ok texts =>
          simp only [htexts] at h
          by_cases hle : stop ≤ q
          · obtain rfl : Report.make text q texts = report := by
              cases h
              exact (if_pos hle).symm
            exact hf.tells hS hposition hle htexts
          · obtain rfl : Report.make text stop ["end of input"] = report := by
              cases h
              exact (if_neg hle).symm
            refine Report.tells_missing hstop fun q' hq' => ?_
            rw [hq'.unique (hf.isGreatest hposition)]
            exact not_le.mp hle

/-- Matches fail in the text. -/
theorem FailsAt.le_length {id : ExprId} {q : Nat} (h : p.FailsAt text id q) : q ≤ text.length := by
  obtain ⟨under, m, m', expr, hunder, -, rfl, -⟩ := h
  exact hunder.recording.1.2.2.position

/-- A match of the whole text ends in it. -/
theorem stop_le_of_run {b : Bool} {m : Machine} (h : p.run text = .ok b m) :
    (if b then m.state.stop else 0) ≤ text.length := by
  have hroot : p.PerformsUnder text [] p.root (.initial p.config) := .root
  obtain ⟨⟨hready, hkeeps, hamid⟩, -⟩ := hroot.recording
  obtain ⟨⟨-, htell⟩, -⟩ := (((inherited_within text).serves p.grammar p.config
    p.config.maxDepth).asked hready hkeeps hamid).answer h
  cases b with
  | false => exact Nat.zero_le _
  | true => exact (htell _ rfl).stop

/-- A text that is not matched to its end has a report, which tells all failures of the parse: those of
    the matches inside no negation. -/
theorem parse_report (p : Parser) (source : String) (r : ParseResult)
    (hpolicy : p.config.failures = .farthest) (h : (p.parse source).outcome = .ok r) :
    (r.report.isSome = true ↔ r.matched = false) ∧
      (∀ report, r.report = some report →
        report.Tells (p.FailsAt (.ofString source)) p.grammar (.ofString source) r.stop) ∧
      ∀ under id m, p.PerformsUnder (.ofString source) under id m →
        (m.state.recording = true ↔ ∀ outer ∈ under, ¬ p.grammar.IsNegation outer.1) := by
  obtain ⟨b, m, hrun, hconclude⟩ := parse_ok h
  obtain ⟨f, hfailures, hf⟩ := run_collects hpolicy hrun
  obtain ⟨-, hstop, -, -, hreport⟩ := conclude_ok hconclude
  have hlast : r.stop ≤ (Text.ofString source).length := hstop ▸ stop_le_of_run hrun
  refine ⟨?_, ?_, fun under id m hunder => hunder.recording.2⟩
  · cases hmatched : r.matched with
    | true =>
        rw [hmatched, if_pos rfl] at hreport
        simp [hreport]
    | false =>
        simp only [hmatched, Bool.false_eq_true, if_false] at hreport
        obtain ⟨report, hsome, -⟩ := hreport
        simp [hsome]
  · intro report hsome
    split at hreport
    · cases hreport.symm.trans hsome
    · obtain ⟨report', hsome', hmade⟩ := hreport
      cases hsome.symm.trans hsome'
      rw [hfailures] at hmade
      exact reportFor_tells hf (fun _ _ => FailsAt.le_length) hlast hmade

/-- A letter, a line feed, and another letter that is not the one looked out for. -/
def lined : Parser :=
  { grammar := { nodes := #[.ofShape (.sequence [1, 2, 3, 5]), .ofShape (.literal "a"),
      .ofShape (.literal "\n"), .ofShape (.not 4), .ofShape (.literal "b"), .ofShape (.literal "c")] }
    root := 0
    config := {} }

theorem parse_report_lined :
    lined.config.failures = .farthest ∧ ∃ r report, (lined.parse "a\nd").outcome = .ok r ∧
      r.report = some report ∧ report.position = 2 ∧ report.line = 2 ∧ report.column = 1 ∧
      report.expected = ["\"c\""] ∧
      report.Tells (lined.FailsAt (.ofString "a\nd")) lined.grammar (.ofString "a\nd") r.stop := by
  obtain ⟨r, h, hr⟩ := exists_of_toOption (f := ParseResult.report)
    (b := some { position := 2, line := 2, column := 1, expected := ["\"c\""] })
    (x := (lined.parse "a\nd").outcome) (by decide +kernel)
  obtain ⟨-, htells, -⟩ := parse_report lined "a\nd" r rfl h
  exact ⟨rfl, r, _, h, hr, rfl, rfl, rfl, rfl, htells _ hr⟩

end Parser

end Packrat
