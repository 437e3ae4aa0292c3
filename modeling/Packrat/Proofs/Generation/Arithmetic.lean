import Packrat.Proofs.Arithmetic.Acceptance
import Packrat.Proofs.Generation.Termination

/-! # Generated expressions are accepted

    Generation does not look at precedences: from the cluster it takes any alternative, however deep
    it is nested.  Still, whatever is emitted for the cluster is an expression
    (`Emitted.of_putTogether`), and the cluster matches every expression. -/

namespace Packrat.Arithmetic

open Relation
open Sums (isDigit Number)
open Cluster (role Role)

variable {gen : Generator} {g : Grammar} {s : Shape ExprId} {id i : ExprId} {ids : List ExprId}
variable {chars : List Char}

/-- A number without the blanks of its token.  What is below it comes before it. -/
abbrev bare : ExprId := 2

/-- What is emitted for an expression of the grammar with a cluster. -/
structure Emitted (id : ExprId) (chars : List Char) : Prop where
  literal : ∀ op, climbing.shape? id = some (.literal op) → chars = op.toList
  digits : id ≤ bare → Number chars
  token : ∀ x : Lexeme, x.Known → id = Cluster.token x → x.Spells chars
  expression : role id ≠ none → Expression chars

/-- No group of the shape is empty, if it is a cluster. -/
def hasAlternatives : Shape ExprId → Bool
  | .cluster groups => groups.all fun group => !group.alternatives.isEmpty
  | _ => true

/-- No group is empty, so something is always picked. -/
theorem expands_of_emits (hs : climbing.shape? id = some s) (h : climbing.Emits s ids) :
    climbing.Expands s ids := by
  rcases h with h | ⟨-, groups, rfl, group, hgroup, hempty⟩
  · exact h
  · have hgroups : ∀ id < climbing.size, ∀ s ∈ climbing.shape? id, hasAlternatives s = true := by
      decide
    have hall := List.all_eq_true.mp (hgroups id (Grammar.lt_size_of_shape? hs) _ hs) group hgroup
    rw [hempty] at hall
    cases hall

/-- What is emitted for a single expression. -/
theorem Emitted.of_single {texts : List (List Char)} (hids : ids = [i])
    (h : List.Forall₂ Emitted ids texts) : Emitted i texts.flatten := by
  subst hids
  cases h with
  | cons htext hnil =>
      cases hnil
      simpa using htext

/-! ## Operands -/

theorem number_of_replicate {n : Nat} {texts : List (List Char)} (hi : i ≤ bare)
    (h : List.Forall₂ Emitted (List.replicate (n + 1) i) texts) : Number texts.flatten := by
  induction n generalizing texts with
  | zero => exact (Emitted.of_single rfl h).digits hi
  | succ n ih =>
      cases h with
      | @cons _ text _ rest htext hrest =>
          obtain ⟨hne, hdigits⟩ := htext.digits hi
          obtain ⟨-, hmore⟩ := ih hrest
          rw [List.flatten_cons]
          refine ⟨List.append_ne_nil_of_left_ne_nil hne _, fun c hc => ?_⟩
          exact (List.mem_append.mp hc).elim (hdigits c) (hmore c)

theorem shape_token {x : Lexeme} (hx : x.Known) :
    ∃ e, climbing.shape? (Cluster.token x) = some (.token e) ∧
      match x with
      | .number => e = bare
      | .mark op => climbing.shape? e = some (.literal op) := by
  cases x with
  | number => exact ⟨bare, rfl, rfl⟩
  | mark op =>
      have hop : op ∈ marks := hx
      simp only [marks, List.mem_cons, List.not_mem_nil, or_false] at hop
      rcases hop with rfl | rfl | rfl | rfl | rfl | rfl <;> exact ⟨_, rfl, rfl⟩

theorem operator_of_items {t : Tier} {op : String} (h : role id = some (.items t op)) :
    op ∈ operators := by
  unfold role at h
  split at h <;> cases h <;> decide

/-! ## What is put together -/

section PutTogether

variable {texts : List (List Char)} (hs : climbing.shape? id = some s)
  (hexpands : climbing.Expands s ids) (htexts : List.Forall₂ Emitted ids texts)
  (hrenders : climbing.Renders s texts.flatten chars)
include hs hexpands htexts hrenders

/-- Digits are emitted below a number. -/
theorem number_of_digits (hid : id ≤ bare) : Number chars := by
  interval_cases id
  · cases hs
    obtain ⟨c, rfl, hc⟩ := hrenders
    have hdigit : isDigit c = true := by
      rcases hc with rfl | ⟨hlo, hhi⟩
      · decide
      · simp [isDigit, hlo, hhi]
    exact ⟨List.cons_ne_nil _ _, List.forall_mem_singleton.mpr hdigit⟩
  · cases hs
    obtain ⟨k, rfl⟩ := hexpands
    obtain rfl : chars = texts.flatten := hrenders
    exact number_of_replicate (Nat.zero_le bare) htexts
  · cases hs
    obtain rfl : chars = texts.flatten := hrenders
    exact (Emitted.of_single hexpands htexts).digits (by decide)

/-- A token is emitted with at most one blank. -/
theorem spells_of_token {x : Lexeme} (hx : x.Known) (hid : id = Cluster.token x) :
    x.Spells chars := by
  subst hid
  obtain ⟨e, hs', he⟩ := shape_token hx
  cases hs.symm.trans hs'
  have hbare : Emitted e texts.flatten := .of_single hexpands htexts
  have hblanks : ∃ blanks, chars = texts.flatten ++ blanks ∧ ∀ c ∈ blanks, isBlank c = true := by
    rcases hrenders with rfl | ⟨-, rfl⟩
    · exact ⟨[], (List.append_nil _).symm, by simp⟩
    · exact ⟨[' '], rfl, List.forall_mem_singleton.mpr (by decide)⟩
  obtain ⟨blanks, rfl, hblanks⟩ := hblanks
  refine ⟨hx, _, blanks, rfl, hblanks, ?_⟩
  cases x with
  | number =>
      obtain rfl : e = bare := he
      exact hbare.digits le_rfl
  | mark op => exact hbare.literal op he

/-- Whatever alternatives are taken, the cluster emits expressions. -/
theorem expression_of_role (hid : role id ≠ none) : Expression chars := by
  have hshape : ∀ {s' : Shape ExprId}, climbing.shape? id = some s' → s = s' :=
    fun hs' => Option.some.inj (hs.symm.trans hs')
  obtain ⟨r, hrole⟩ := Option.ne_none_iff_exists'.mp hid
  cases r with
  | cluster =>
      obtain ⟨-, hs'⟩ := Cluster.of_cluster hrole
      obtain rfl := hshape hs'
      obtain rfl : chars = texts.flatten := hrenders
      rcases hexpands with ⟨hnil, -⟩ | ⟨i, hi, hids⟩
      · cases hnil
      · have hemitted := Emitted.of_single hids htexts
        have halternatives : ∀ i ∈ (Cluster.groups (.tier .sum)).flatMap Group.alternatives,
            i = Cluster.token .number ∨ role i ≠ none := by
          decide
        rcases halternatives i hi with rfl | hplain
        · exact .number (hemitted.token .number trivial rfl)
        · exact hemitted.expression hplain
  | operation t op =>
      obtain ⟨i, hs', hi⟩ := Cluster.of_operation hrole
      obtain rfl := hshape hs'
      obtain rfl : chars = texts.flatten := hrenders
      exact (Emitted.of_single hexpands htexts).expression (by simp [hi])
  | items t op =>
      obtain rfl := hshape (Cluster.of_items hrole)
      obtain rfl : chars = texts.flatten := hrenders
      obtain rfl : ids = [Cluster.cluster, Cluster.token (.mark op), Cluster.cluster] := hexpands
      have hop := operator_of_items hrole
      cases htexts with
      | cons hleft hrest =>
          cases hrest with
          | cons hsign hrest =>
              have hright := Emitted.of_single rfl hrest
              exact .operation hop (hleft.expression (by decide))
                (hsign.token (.mark op) (mark_of_operator hop) rfl) (hright.expression (by decide))
  | group =>
      obtain rfl := hshape (Cluster.of_group hrole)
      obtain rfl : chars = texts.flatten := hrenders
      obtain rfl : ids = [Cluster.token (.mark "("), Cluster.reset, Cluster.token (.mark ")")] :=
        hexpands
      have hmarks : "(" ∈ marks ∧ ")" ∈ marks := by decide
      cases htexts with
      | cons hopening hrest =>
          cases hrest with
          | cons hinner hrest =>
              have hclosing := Emitted.of_single rfl hrest
              exact .group (hopening.token (.mark "(") hmarks.1 rfl) (hinner.expression (by decide))
                (hclosing.token (.mark ")") hmarks.2 rfl)
  | reset =>
      obtain rfl := hshape (Cluster.of_reset hrole)
      obtain rfl : chars = texts.flatten := hrenders
      exact (Emitted.of_single hexpands htexts).expression (by decide)

end PutTogether

/-- What is put together from what is emitted is emitted. -/
theorem Emitted.of_putTogether (hgen : gen.grammar = climbing) (hs : climbing.shape? id = some s)
    (h : gen.PutTogether Emitted s chars) : Emitted id chars := by
  obtain ⟨ids, texts, hemits, htexts, hrenders⟩ := h
  rw [hgen] at hemits hrenders
  have hexpands := expands_of_emits hs hemits
  refine ⟨fun op hs' => ?_, number_of_digits hs hexpands htexts hrenders,
    fun x => spells_of_token hs hexpands htexts hrenders,
    expression_of_role hs hexpands htexts hrenders⟩
  cases hs.symm.trans hs'
  exact hrenders

/-! ## Texts -/

/-- A bound on the height of an expression of the grammar. -/
def heightBound (id : ExprId) : Nat :=
  if id = Cluster.cluster then 4 else if id ≤ Cluster.token .number then id else id + 1

theorem nonempty_climbing (hid : id < climbing.size) : Nonempty (climbing.Derivation id) := by
  refine Grammar.nonempty_derivation heightBound ?_ hid
  intro id hid
  replace hid : id < 38 := hid
  by_cases hcluster : id = Cluster.cluster
  · subst hcluster
    exact ⟨_, [Cluster.token .number], rfl, .inr ⟨_, by decide, rfl⟩, by decide⟩
  · interval_cases id <;> first
      | exact absurd rfl hcluster
      | exact ⟨_, _, rfl, Grammar.expands_of_picks rfl, by decide⟩

/-- Something that may be repeated no times. -/
def isZeroMore : Shape ExprId → Bool
  | .zeroMore _ => true
  | _ => false

/-- Only blanks may be repeated no times, and the grammar does not lead to them. -/
theorem not_overflows (hreach : ReflTransGen climbing.Derives Cluster.cluster id)
    (hs : climbing.shape? id = some s) : ¬gen.Overflows s := by
  rintro ⟨⟨e, rfl⟩, -⟩
  have hmentioned : climbing.Mentions id := by
    rcases hreach.cases_tail with rfl | ⟨before, -, hlast⟩
    · exact .inl rfl
    · exact hlast.mentions
  have hnever : ∀ s ∈ climbing.shape? id, isZeroMore s = false :=
    hmentioned.of_forall (P := fun i => ∀ s ∈ climbing.shape? i, isZeroMore s = false)
      (by decide) (by decide) (by decide)
  cases hnever _ hs

/-- A generator for the grammar never fails, and generates expressions. -/
theorem generates_expressions (config : GeneratorConfig) :
    ∃ gen, Generator.make climbing config = .ok gen ∧
      ∀ (σ : Type) [WordSource σ] (source : σ), ∃ text source',
        gen.generate source = .ok (text, source') ∧ Expression text.toList := by
  have hinside : ∀ i, ¬climbing.Dangling i := fun i =>
    Grammar.not_dangling (by decide) (by decide) (by decide)
  rcases climbing.heights_ok_or with ⟨heights, hheights⟩ | ⟨i, hi, -⟩
  · let gen : Generator := { grammar := climbing, config, heights }
    refine ⟨gen, by rw [Generator.make, hheights]; rfl, fun σ _ source => ?_⟩
    have hfinite : ∀ id < gen.grammar.size, heightAt gen.heights id ≠ none := fun id hid =>
      Grammar.heightAt_ne_none hheights (nonempty_climbing hid)
    have hgen : gen.grammar.heights = .ok gen.heights := hheights
    have hbreaks := Generator.generateChars_breaks (σ := σ) hgen hfinite
    have hemitted : (gen.generateChars : Drawing σ (List Char)).Always (Emitted Cluster.cluster)
        fun _ => True :=
      Generator.emit_text (fun id s chars => Emitted.of_putTogether rfl) _ 0 Cluster.cluster
    have hexpression : (gen.generateChars : Drawing σ (List Char)).Always Expression
        fun _ => False := by
      refine fun source => ⟨fun chars source' hrun => ?_, fun e hrun => ?_⟩
      · exact ((hemitted source).1 chars source' hrun).expression (by decide)
      · obtain ⟨root, hroot, hbreak⟩ := (hbreaks source).2 e hrun
        obtain rfl : Cluster.cluster = root := Option.some.inj hroot
        cases hbreak with
        | dangling hi => exact hinside _ hi
        | overflow hreach hs hover => exact not_overflows hreach hs hover
    exact (Generator.ofList_always hexpression).exists_ok source
  · exact (hinside i hi).elim

/-- **GENERATED EXPRESSIONS ARE ACCEPTED**: whatever the settings of the generator are and whatever
    is drawn, a text is generated, and whatever the configuration of a parse is, if it has a result,
    then the whole text is matched. -/
theorem generated_matched (config : GeneratorConfig) :
    ∃ gen, Generator.make Sample.arithmeticCluster config = .ok gen ∧
      ∀ (σ : Type) [WordSource σ] (source : σ), ∃ text source',
        gen.generate source = .ok (text, source') ∧
        ∀ (c : Config) (r : ParseResult),
          (parseWith Sample.arithmeticCluster c text).outcome = .ok r →
            r.matched = true ∧ r.stop = (Text.ofString text).length := by
  rw [arithmeticCluster_eq]
  obtain ⟨gen, hmake, hgenerate⟩ := generates_expressions config
  refine ⟨gen, hmake, fun σ _ source => ?_⟩
  obtain ⟨text, source', hrun, hexpression⟩ := hgenerate σ source
  exact ⟨text, source', hrun, fun c r h => matched_of_expression hexpression h⟩

theorem generated_matched_memoized :
    ∃ gen text source r, Generator.make Sample.arithmeticCluster {} = .ok gen ∧
      gen.generate Xorshift.unseeded = .ok (text, source) ∧
      (parseWith Sample.arithmeticCluster
        { memoization := .all, maxDepth := ((Text.ofString text).length + 1) * climbing.span }
        text).outcome = .ok r ∧
      r.matched = true ∧ r.stop = (Text.ofString text).length := by
  obtain ⟨gen, hmake, hgenerate⟩ := generated_matched {}
  obtain ⟨text, source, hrun, hmatched⟩ := hgenerate Xorshift Xorshift.unseeded
  let c : Config :=
    { memoization := .all, maxDepth := ((Text.ofString text).length + 1) * climbing.span }
  obtain ⟨r, h⟩ : ∃ r, (parseWith Sample.arithmeticCluster c text).outcome = .ok r := by
    rw [arithmeticCluster_eq]
    exact exists_result rfl le_rfl
  exact ⟨gen, text, source, r, hmake, hrun, h, hmatched c r h⟩

end Packrat.Arithmetic
