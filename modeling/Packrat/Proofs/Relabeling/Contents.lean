import Packrat.Proofs.SeedContents
import Packrat.State.Basic

/-! # What is kept by expression, under other ids

    Seeds, blocked boundaries and floors are kept in lists in the order of the ids.  Under other ids
    the order is another, and so are the lists.  But the lists are canonical, so all that counts is
    what they answer: under the new id what they answered under the old one (`Relabeling.Carries`),
    and every edit keeps that.  A fingerprint is made of such lists, and two of them are equal
    exactly if they are equal under the new ids (`Relabeling.CarriesPrint.eq_iff`). -/

namespace Packrat

/-- Other names for the keys of a part, no two of which become one. -/
structure Relabeling (κ : Type) where
  part : κ → Prop
  image : κ → κ
  injective : ∀ j k, part j → part k → image j = image k → j = k

namespace Relabeling

/-! ## Maps -/

section Maps

variable {κ β : Type} {ρ : Relabeling κ} {idle b : β} {m m' n n' : κ → β} {k : κ}

/-- Within the part that is renamed, no two ids are given one name. -/
theorem image_eq_iff (ρ : Relabeling κ) {j k : κ} (hj : ρ.part j) (hk : ρ.part k) :
    ρ.image j = ρ.image k ↔ j = k :=
  ⟨ρ.injective j k hj hk, congrArg ρ.image⟩

/-- The second map answers under the new name what the first answers under the old one.  For what
    has neither name both are idle. -/
structure Carries (ρ : Relabeling κ) (idle : β) (m m' : κ → β) : Prop where
  answer : ∀ k, ρ.part k → m' (ρ.image k) = m k
  inside : ∀ k, m k ≠ idle → ρ.part k
  onto : ∀ j, m' j ≠ idle → ∃ k, ρ.part k ∧ ρ.image k = j

/-- Maps without entries correspond. -/
theorem Carries.of_idle (h : ∀ k, m k = idle) (h' : ∀ k, m' k = idle) : ρ.Carries idle m m' where
  answer k _ := (h' _).trans (h k).symm
  inside k hk := absurd (h k) hk
  onto j hj := absurd (h' j) hj

/-- Both maps get a new answer, one under the new name. -/
theorem Carries.update [DecidableEq κ] (h : ρ.Carries idle m m') (hk : ρ.part k)
    (hn : ∀ j, n j = if j = k then b else m j)
    (hn' : ∀ j, n' j = if j = ρ.image k then b else m' j) : ρ.Carries idle n n' where
  answer j hj := by
    rw [hn, hn', h.answer j hj]
    simp only [ρ.image_eq_iff hj hk]
  inside j hj := by
    rw [hn] at hj
    by_cases hjk : j = k
    · exact hjk ▸ hk
    · rw [if_neg hjk] at hj
      exact h.inside j hj
  onto j hj := by
    rw [hn'] at hj
    by_cases hjk : j = ρ.image k
    · exact ⟨k, hk, hjk.symm⟩
    · rw [if_neg hjk] at hj
      exact h.onto j hj

/-- Maps are equal exactly if they are under the new names. -/
theorem Carries.eq_iff (hm : ρ.Carries idle m m') (hn : ρ.Carries idle n n') :
    m = n ↔ m' = n' := by
  constructor
  · rintro rfl
    funext j
    by_cases hj : ∃ k, ρ.part k ∧ ρ.image k = j
    · obtain ⟨k, hk, rfl⟩ := hj
      rw [hm.answer k hk, hn.answer k hk]
    · rw [of_not_not (mt (hm.onto j) hj), of_not_not (mt (hn.onto j) hj)]
  · rintro rfl
    funext k
    by_cases hk : ρ.part k
    · rw [← hm.answer k hk, ← hn.answer k hk]
    · rw [of_not_not (mt (hm.inside k) hk), of_not_not (mt (hn.inside k) hk)]

end Maps

/-! ## Keys and entries of seeds -/

/-- Keys of seeds under the new ids. -/
def keys (ρ : Relabeling ExprId) : Relabeling SeedKey where
  part k := ρ.part k.expr
  image k := { k with expr := ρ.image k.expr }
  injective j k hj hk h := by
    obtain ⟨expr, position⟩ := j
    obtain ⟨expr', position'⟩ := k
    obtain ⟨hexpr, rfl⟩ := SeedKey.mk.inj h
    rw [ρ.injective expr expr' hj hk hexpr]

/-- Entries of the seeds under the new ids. -/
def atoms (ρ : Relabeling ExprId) : Relabeling SeedAtom where
  part
    | .seed k _ => ρ.keys.part k
    | .blocked id => ρ.part id
  image
    | .seed k stop => .seed (ρ.keys.image k) stop
    | .blocked id => .blocked (ρ.image id)
  injective a b ha hb h := by
    cases a with
    | seed j stop =>
        cases b with
        | seed k stop' =>
            obtain ⟨hkey, rfl⟩ := SeedAtom.seed.inj h
            rw [ρ.keys.injective j k ha hb hkey]
        | blocked id => cases h
    | blocked i =>
        cases b with
        | seed k stop => cases h
        | blocked j => rw [ρ.injective i j ha hb (SeedAtom.blocked.inj h)]

/-! ## Seeds -/

variable {ρ : Relabeling ExprId} {a b a' b' : Seeds ExactDigest} {id : ExprId}

/-- The same seeds and the same boundaries blocked, under the new ids. -/
structure CarriesSeeds (ρ : Relabeling ExprId) (a b : Seeds ExactDigest) : Prop where
  left : a.Canonical
  right : b.Canonical
  seeds : ρ.keys.Carries none a.get? b.get?
  blocked : ρ.Carries False (· ∈ a.blocked) (· ∈ b.blocked)

/-- Seeds correspond at the start of a parse, where there are none. -/
theorem carriesSeeds_empty : ρ.CarriesSeeds .empty .empty where
  left := Seeds.canonical_empty
  right := Seeds.canonical_empty
  seeds := .of_idle (fun _ => rfl) fun _ => rfl
  blocked := .of_idle (fun _ => eq_false (List.not_mem_nil)) fun _ => eq_false (List.not_mem_nil)

namespace CarriesSeeds

/-- A seed installed at a key is installed at the renamed key on the other side. -/
theorem insert (h : ρ.CarriesSeeds a b) {key : SeedKey} (hkey : ρ.part key.expr)
    (seed : Option Changes) :
    ρ.CarriesSeeds (a.insert key seed) (b.insert (ρ.keys.image key) seed) where
  left := h.left.insert key seed
  right := h.right.insert _ seed
  seeds := h.seeds.update hkey (fun j => Seeds.get?_insert a key j seed) fun j =>
    Seeds.get?_insert b _ j seed
  blocked := h.blocked

/-- A seed taken from a key is taken from the renamed key. -/
theorem remove (h : ρ.CarriesSeeds a b) {key : SeedKey} (hkey : ρ.part key.expr) :
    ρ.CarriesSeeds (a.remove key) (b.remove (ρ.keys.image key)) where
  left := h.left.remove key
  right := h.right.remove _
  seeds := h.seeds.update hkey (h.left.get?_remove key) (h.right.get?_remove _)
  blocked := by
    rw [Seeds.blocked_remove, Seeds.blocked_remove]
    exact h.blocked

/-- A node is blocked exactly if its image is. -/
theorem isBlocked (h : ρ.CarriesSeeds a b) (hid : ρ.part id) :
    b.isBlocked (ρ.image id) = a.isBlocked id := by
  rw [Bool.eq_iff_iff, Seeds.isBlocked_iff, Seeds.isBlocked_iff]
  exact (h.blocked.answer id hid).to_iff

theorem setBlocked (h : ρ.CarriesSeeds a b) (hid : ρ.part id) (v : Bool) :
    ρ.CarriesSeeds (a.setBlocked id v) (b.setBlocked (ρ.image id) v) where
  left := h.left.setBlocked id v
  right := h.right.setBlocked _ v
  seeds := by
    rw [funext (Seeds.get?_setBlocked a id v), funext (Seeds.get?_setBlocked b _ v)]
    exact h.seeds
  blocked := h.blocked.update hid (fun i => propext (h.left.mem_setBlocked id i v)) fun i =>
    propext (h.right.mem_setBlocked _ i v)

theorem unblockAll (h : ρ.CarriesSeeds a b) : ρ.CarriesSeeds a.unblockAll b.unblockAll where
  left := h.left.unblockAll
  right := h.right.unblockAll
  seeds := h.seeds
  blocked := carriesSeeds_empty.blocked

/-- The blocked set of other seeds is put back. -/
theorem restoreBlocked (h : ρ.CarriesSeeds a b) (h' : ρ.CarriesSeeds a' b') :
    ρ.CarriesSeeds (a.restoreBlocked a'.blocked) (b.restoreBlocked b'.blocked) where
  left := h.left.restoreBlocked h'.left.blocked
  right := h.right.restoreBlocked h'.right.blocked
  seeds := h.seeds
  blocked := h'.blocked

/-- The digest holds the same entries. -/
theorem digest (h : ρ.CarriesSeeds a b) :
    ρ.atoms.Carries False (· ∈ a.digest.atoms) (· ∈ b.digest.atoms) where
  answer atom hatom := by
    cases atom with
    | seed key stop =>
        simp only [atoms, h.right.mem_seed, h.left.mem_seed, h.seeds.answer key hatom]
    | blocked id =>
        simp only [atoms, h.right.mem_blocked, h.left.mem_blocked]
        exact h.blocked.answer id hatom
  inside atom hatom := by
    cases atom with
    | seed key stop =>
        obtain ⟨c, hc, -⟩ := h.left.mem_seed.mp (of_not_not (mt eq_false hatom))
        exact h.seeds.inside key (by rw [hc]; exact Option.some_ne_none c)
    | blocked id =>
        refine h.blocked.inside id fun hid => hatom ?_
        rw [h.left.mem_blocked]
        exact hid
  onto atom hatom := by
    cases atom with
    | seed key stop =>
        obtain ⟨c, hc, -⟩ := h.right.mem_seed.mp (of_not_not (mt eq_false hatom))
        obtain ⟨k, hk, rfl⟩ := h.seeds.onto key (by rw [hc]; exact Option.some_ne_none c)
        exact ⟨.seed k stop, hk, rfl⟩
    | blocked id =>
        have hid : (id ∈ b.blocked) ≠ False := fun hid => hatom <| by
          rw [h.right.mem_blocked]
          exact hid
        obtain ⟨i, hi, rfl⟩ := h.blocked.onto id hid
        exact ⟨.blocked i, hi, rfl⟩

end CarriesSeeds

/-! ## Floors -/

/-- The same floors, under the new ids. -/
structure CarriesFloors (ρ : Relabeling ExprId) (f f' : Floors) : Prop where
  left : f.Canonical
  right : f'.Canonical
  explicit : ρ.Carries none f.explicit? f'.explicit?
  fallback : f'.fallback = f.fallback

namespace CarriesFloors

variable {f f' g g' : Floors}

/-- One floor for all clusters is one floor for their images. -/
theorem uniform (floor : Precedence) : ρ.CarriesFloors (.uniform floor) (.uniform floor) where
  left := Floors.canonical_uniform floor
  right := Floors.canonical_uniform floor
  explicit := .of_idle (fun _ => rfl) fun _ => rfl
  fallback := rfl

/-- A cluster and its image stand at the same floor. -/
theorem floor (h : ρ.CarriesFloors f f') (hid : ρ.part id) :
    f'.floor (ρ.image id) = f.floor id := by
  rw [Floors.floor, Floors.floor, h.explicit.answer id hid, h.fallback]

theorem set (h : ρ.CarriesFloors f f') (hid : ρ.part id) (floor : Precedence) :
    ρ.CarriesFloors (f.set id floor) (f'.set (ρ.image id) floor) where
  left := h.left.set id floor
  right := h.right.set _ floor
  explicit := h.explicit.update hid (fun j => Floors.explicit?_set f id j floor) fun j =>
    Floors.explicit?_set f' _ j floor
  fallback := h.fallback

theorem reset (h : ρ.CarriesFloors f f') (hid : ρ.part id) (previous : Option Precedence) :
    ρ.CarriesFloors (f.reset id previous) (f'.reset (ρ.image id) previous) where
  left := h.left.reset id previous
  right := h.right.reset _ previous
  explicit := h.explicit.update hid (fun j => h.left.explicit?_reset id j previous) fun j =>
    h.right.explicit?_reset _ j previous
  fallback := by rw [Floors.fallback_reset, Floors.fallback_reset, h.fallback]

/-- Floors that correspond are equal on one side if they are on the other, as a table compares them.
    -/
theorem eq_iff (hf : ρ.CarriesFloors f f') (hg : ρ.CarriesFloors g g') : f = g ↔ f' = g' := by
  constructor
  · rintro rfl
    refine hf.right.ext hg.right ?_ (hf.fallback.trans hg.fallback.symm)
    exact congrFun ((hf.explicit.eq_iff hg.explicit).mp rfl)
  · rintro rfl
    refine hf.left.ext hg.left ?_ (hf.fallback.symm.trans hg.fallback)
    exact congrFun ((hf.explicit.eq_iff hg.explicit).mpr rfl)

end CarriesFloors

/-! ## Fingerprints -/

/-- The same fingerprint, under the new ids. -/
structure CarriesPrint (ρ : Relabeling ExprId) (p p' : Fingerprint) : Prop where
  left : Ordered.Increasing p.seeds.atoms
  right : Ordered.Increasing p'.seeds.atoms
  seeds : ρ.atoms.Carries False (· ∈ p.seeds.atoms) (· ∈ p'.seeds.atoms)
  floors : ρ.CarriesFloors p.floors p'.floors
  slots : p'.slots = p.slots
  recording : p'.recording = p.recording

/-- Digests in order are equal if they have the same members. -/
theorem eq_of_mem_atoms {d e : ExactDigest} (hd : Ordered.Increasing d.atoms)
    (he : Ordered.Increasing e.atoms) (h : (· ∈ d.atoms) = (· ∈ e.atoms)) : d = e :=
  ExactDigest.ext_atoms (hd.ext he fun a => (congrFun h a).to_iff)

/-- Renaming neither merges two fingerprints nor splits one. -/
theorem CarriesPrint.eq_iff {p p' q q' : Fingerprint} (hp : ρ.CarriesPrint p p')
    (hq : ρ.CarriesPrint q q') : p = q ↔ p' = q' := by
  constructor
  · rintro rfl
    have hseeds : p'.seeds = q'.seeds :=
      eq_of_mem_atoms hp.right hq.right ((hp.seeds.eq_iff hq.seeds).mp rfl)
    have hfloors : p'.floors = q'.floors := (hp.floors.eq_iff hq.floors).mp rfl
    have hslots := hp.slots.trans hq.slots.symm
    have hrecording := hp.recording.trans hq.recording.symm
    cases p'
    cases q'
    simp_all
  · rintro rfl
    have hseeds : p.seeds = q.seeds :=
      eq_of_mem_atoms hp.left hq.left ((hp.seeds.eq_iff hq.seeds).mpr rfl)
    have hfloors : p.floors = q.floors := (hp.floors.eq_iff hq.floors).mpr rfl
    have hslots := hp.slots.symm.trans hq.slots
    have hrecording := hp.recording.symm.trans hq.recording
    cases p
    cases q
    simp_all

end Relabeling

end Packrat
