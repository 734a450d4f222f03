import Depot.Proofs.Settings.Rules

/-!
What a catalog says of the packages it was made from. It tells packages apart by the normal form of
their ids, and the rules by their spelling.
-/

namespace Depot

/-- Where the content of a package is looked for if nothing but one entry declares it. -/
def PackageEntry.ownLocations (p : PackageEntry) (id : TargetId) : List Location :=
  (p.locations.map fun l => ⟨id, l.name, l.path⟩) ++
    if ∃ l ∈ p.locations, l.name = Branch.defaultLocation then []
    else [⟨id, Branch.defaultLocation, id.text⟩]

namespace Catalog

variable {c c' : Catalog} {id : TargetId} {p : PackageEntry} {ps qs : List PackageEntry}

theorem locations_eq_ownLocations (h : c.declared id = p.locations) :
    c.locations id = p.ownLocations id := by
  rw [locations, PackageEntry.ownLocations, h]
  by_cases hdefault : ∃ l ∈ p.locations, l.name = Branch.defaultLocation
  · rw [if_pos hdefault, List.append_nil, if_pos (by simpa using hdefault)]
  · rw [if_neg hdefault, if_neg (by simpa using hdefault)]

theorem declare_ok (h : ∀ p ∈ ps, ∃ id, TargetId.parse p.id = .ok id) :
    ∃ c', c.declare ps = .ok c' := by
  induction ps generalizing c with
  | nil => exact ⟨c, rfl⟩
  | cons p ps ih =>
    obtain ⟨⟨id, hid⟩, hps⟩ := List.forall_mem_cons.mp h
    rw [declare, hid]
    exact ih hps

theorem declare_append (h : c.declare (ps ++ qs) = .ok c') :
    ∃ c₁, c.declare ps = .ok c₁ ∧ c₁.declare qs = .ok c' := by
  induction ps generalizing c with
  | nil => exact ⟨c, rfl, h⟩
  | cons p ps ih =>
    rw [List.cons_append, declare] at h
    rw [declare]
    cases hid : TargetId.parse p.id with
    | error f =>
      rw [hid] at h
      cases h
    | ok id =>
      rw [hid] at h
      exact ih h

/-- Packages with other ids leave what is declared for an id. -/
theorem declared_of_declare (hps : ∀ p ∈ ps, TargetId.parse p.id ≠ .ok id)
    (h : c.declare ps = .ok c') : c'.declared id = c.declared id := by
  induction ps generalizing c with
  | nil => rw [Except.ok.inj h]
  | cons p ps ih =>
    obtain ⟨hp, hps⟩ := List.forall_mem_cons.mp hps
    rw [declare] at h
    cases hother : TargetId.parse p.id with
    | error f =>
      rw [hother] at h
      cases h
    | ok other =>
      rw [hother] at h hp
      have hne : id ≠ other := fun heq => hp (heq ▸ rfl)
      rw [ih hps h, declared, declared, assoc?_assocSet_ne hne]

/-- The last package with an id says what is declared for it. -/
theorem declared_of_last (hp : TargetId.parse p.id = .ok id)
    (hqs : ∀ q ∈ qs, TargetId.parse q.id ≠ .ok id) (h : c.declare (ps ++ p :: qs) = .ok c') :
    c'.declared id = p.locations := by
  obtain ⟨c₁, -, h⟩ := declare_append h
  rw [declare, hp] at h
  rw [declared_of_declare hqs h, declared, assoc?_assocSet_self]
  rfl

theorem exists_last (h : ∃ p ∈ ps, TargetId.parse p.id = .ok id) :
    ∃ before p after, ps = before ++ p :: after ∧ TargetId.parse p.id = .ok id ∧
      ∀ q ∈ after, TargetId.parse q.id ≠ .ok id := by
  induction ps with
  | nil => simp at h
  | cons p ps ih =>
    by_cases hlater : ∃ q ∈ ps, TargetId.parse q.id = .ok id
    · obtain ⟨before, q, after, rfl, hq⟩ := ih hlater
      exact ⟨p :: before, q, after, rfl, hq⟩
    · have hps : ∀ q ∈ ps, TargetId.parse q.id ≠ .ok id := fun q hq heq => hlater ⟨q, hq, heq⟩
      obtain ⟨q, hq, hid⟩ := h
      rcases List.mem_cons.mp hq with rfl | hq
      · exact ⟨[], q, ps, rfl, hid, hps⟩
      · exact absurd hid (hps q hq)

end Catalog

namespace Settings

/-- Settings that keep the rules make a catalog. For the id of a package it has the locations of the
last package with that id, so each package has its own if and only if all that share an id agree;
and they do if every id is written in normal form. -/
theorem locations_of_validate {s : Settings} (h : s.validate = .ok ()) :
    ∃ c, Catalog.ofPackages s.packages = .ok c ∧
      (∀ before p after, s.packages = before ++ p :: after →
        ∃ id, TargetId.parse p.id = .ok id ∧
          ((∀ q ∈ after, TargetId.parse q.id ≠ .ok id) → c.locations id = p.ownLocations id)) ∧
      ((∀ p ∈ s.packages, ∃ id, TargetId.parse p.id = .ok id ∧ c.locations id = p.ownLocations id) ↔
        ∀ p ∈ s.packages, ∀ q ∈ s.packages, ∀ id, TargetId.parse p.id = .ok id →
          TargetId.parse q.id = .ok id → p.ownLocations id = q.ownLocations id) ∧
      ((∀ p ∈ s.packages, TargetId.parse p.id = .ok ⟨p.id⟩) →
        ∀ p ∈ s.packages, c.locations ⟨p.id⟩ = p.ownLocations ⟨p.id⟩) := by
  obtain ⟨hvalid, hnodup⟩ := validate_eq_ok.mp h
  have hparse : ∀ p ∈ s.packages, ∃ id, TargetId.parse p.id = .ok id := fun p hp => (hvalid p hp).id
  obtain ⟨c, hc⟩ : ∃ c, Catalog.ofPackages s.packages = .ok c := Catalog.declare_ok hparse
  have hlast : ∀ before p after id, s.packages = before ++ p :: after →
      TargetId.parse p.id = .ok id → (∀ q ∈ after, TargetId.parse q.id ≠ .ok id) →
      c.locations id = p.ownLocations id := by
    intro before p after id hsplit hid hafter
    rw [Catalog.ofPackages, hsplit] at hc
    exact Catalog.locations_eq_ownLocations (Catalog.declared_of_last hid hafter hc)
  have hagree : (∀ p ∈ s.packages, ∀ q ∈ s.packages, ∀ id, TargetId.parse p.id = .ok id →
      TargetId.parse q.id = .ok id → p.ownLocations id = q.ownLocations id) →
      ∀ p ∈ s.packages, ∀ id, TargetId.parse p.id = .ok id → c.locations id = p.ownLocations id := by
    intro hsame p hp id hid
    obtain ⟨before, q, after, hsplit, hq, hafter⟩ := Catalog.exists_last ⟨p, hp, hid⟩
    rw [hlast before q after id hsplit hq hafter]
    exact hsame q (by simp [hsplit]) p hp id hq hid
  refine ⟨c, hc, fun before p after hsplit => ?_, ⟨fun hown p hp q hq id hpid hqid => ?_,
    fun hsame p hp => ?_⟩, fun hnormal p hp => ?_⟩
  · obtain ⟨id, hid⟩ := hparse p (by simp [hsplit])
    exact ⟨id, hid, hlast before p after id hsplit hid⟩
  · obtain ⟨i, hi, hp⟩ := hown p hp
    obtain ⟨j, hj, hq⟩ := hown q hq
    obtain rfl := Except.ok.inj (hi.symm.trans hpid)
    obtain rfl := Except.ok.inj (hj.symm.trans hqid)
    exact hp.symm.trans hq
  · obtain ⟨id, hid⟩ := hparse p hp
    exact ⟨id, hid, hagree hsame p hp id hid⟩
  · refine hagree (fun q hq r hr id hqid hrid => ?_) p hp _ (hnormal p hp)
    -- Ids in normal form are spelled alike as soon as they name one package.
    have hspelled : q.id = r.id := by
      have heq := (hnormal q hq).symm.trans (hqid.trans (hrid.symm.trans (hnormal r hr)))
      exact congrArg TargetId.text (Except.ok.inj heq)
    rw [List.inj_on_of_nodup_map hnodup hq hr hspelled]

/-- Two packages with one id in two spellings. -/
def twice : Settings where
  repository := []
  cacheRoot := []
  logFormat := "text"
  packages := [⟨"a", [⟨"statement", "x"⟩]⟩, ⟨"./a", [⟨"tests", "y"⟩]⟩]

/-- They keep the rules, and what the first declares is lost. -/
theorem locations_of_validate_twice : twice.validate = .ok () ∧
    ∃ c, Catalog.ofPackages twice.packages = .ok c ∧
      c.locations ⟨"a"⟩ = [⟨⟨"a"⟩, "tests", "y"⟩, ⟨⟨"a"⟩, "default", "a"⟩] := by
  have hvalid : twice.validate = .ok () := by decide
  have hid : TargetId.parse "./a" = .ok ⟨"a"⟩ := by decide
  obtain ⟨c, hc, hlast, -⟩ := locations_of_validate hvalid
  obtain ⟨id, hparse, hown⟩ := hlast [⟨"a", [⟨"statement", "x"⟩]⟩] ⟨"./a", [⟨"tests", "y"⟩]⟩ [] rfl
  obtain rfl := Except.ok.inj (hid.symm.trans hparse)
  refine ⟨hvalid, c, hc, ?_⟩
  rw [hown (by simp)]
  decide

end Settings

end Depot
