import Depot.Settings.Rules
import Mathlib.Data.List.Nodup

/-! What settings are like that keep the rules. -/

namespace Depot

structure LocationEntry.IsValid (l : LocationEntry) : Prop where
  name_ne : l.name ≠ ""
  slash_notMem : '/' ∉ l.name.toList
  path : ∃ normal, Path.normalize l.path = .ok normal

structure PackageEntry.IsValid (p : PackageEntry) : Prop where
  id : ∃ id, TargetId.parse p.id = .ok id
  locations : ∀ l ∈ p.locations, l.IsValid
  nodup : (p.locations.map (·.name)).Nodup

namespace Settings

variable {seen : List String}

/-- One more entry keeps the rules, and then the others with its name among those seen. -/
theorem forall_cons_iff {α : Type} {isValid : α → Prop} {name : α → String} {x : α} {xs : List α} :
    ((∀ y ∈ x :: xs, isValid y) ∧ ((x :: xs).map name).Nodup ∧ ∀ y ∈ x :: xs, name y ∉ seen) ↔
      isValid x ∧ name x ∉ seen ∧
        (∀ y ∈ xs, isValid y) ∧ (xs.map name).Nodup ∧ ∀ y ∈ xs, name y ∉ name x :: seen := by
  simp only [List.map_cons, List.nodup_cons, List.mem_map, List.mem_cons, not_or]
  grind

theorem checkLocations_eq_ok {id : String} {ls : List LocationEntry} :
    checkLocations id seen ls = .ok () ↔
      (∀ l ∈ ls, l.IsValid) ∧ (ls.map (·.name)).Nodup ∧ ∀ l ∈ ls, l.name ∉ seen := by
  induction ls generalizing seen with
  | nil => simp [checkLocations]
  | cons l ls ih =>
    rw [checkLocations, forall_cons_iff]
    split_ifs with hname hseen
    · have hl : ¬ l.IsValid := fun h => hname.elim h.name_ne h.slash_notMem
      simp [hl]
    · simp [hseen]
    · cases hpath : Path.normalize l.path with
      | error f =>
        have hl : ¬ l.IsValid := fun h => by simpa [hpath] using h.path
        simp [hl]
      | ok normal =>
        have hl : l.IsValid := ⟨fun h => hname (.inl h), fun h => hname (.inr h), normal, hpath⟩
        simp only [ih, hl, hseen, not_false_eq_true, true_and]

theorem checkPackages_eq_ok {ps : List PackageEntry} :
    checkPackages seen ps = .ok () ↔
      (∀ p ∈ ps, p.IsValid) ∧ (ps.map (·.id)).Nodup ∧ ∀ p ∈ ps, p.id ∉ seen := by
  induction ps generalizing seen with
  | nil => simp [checkPackages]
  | cons p ps ih =>
    rw [checkPackages, forall_cons_iff]
    have hlocations : checkLocations p.id [] p.locations = .ok () ↔
        (∀ l ∈ p.locations, l.IsValid) ∧ (p.locations.map (·.name)).Nodup := by
      simp [checkLocations_eq_ok]
    cases hid : TargetId.parse p.id with
    | error f =>
      have hp : ¬ p.IsValid := fun h => by simpa [hid] using h.id
      simp [hp]
    | ok id =>
      dsimp only
      split_ifs with hseen
      · simp [hseen]
      · cases hcheck : checkLocations p.id [] p.locations with
        | error reason =>
          have hp : ¬ p.IsValid := fun h => by
            simpa [hcheck] using hlocations.mpr ⟨h.locations, h.nodup⟩
          simp [hp]
        | ok =>
          obtain ⟨hvalid, hnodup⟩ := hlocations.mp hcheck
          have hp : p.IsValid := ⟨⟨id, hid⟩, hvalid, hnodup⟩
          simp only [ih, hp, hseen, not_false_eq_true, true_and]

/-- Every package is valid, and no two have ids that are spelled alike. -/
theorem validate_eq_ok {s : Settings} :
    s.validate = .ok () ↔ (∀ p ∈ s.packages, p.IsValid) ∧ (s.packages.map (·.id)).Nodup := by
  simp [validate, checkPackages_eq_ok]

end Settings

end Depot
