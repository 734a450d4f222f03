import Depot.Proofs.Settings.Rules
import Depot.Proofs.Text.Parts

/-!
Which locations share a branch. Each location has a branch of its own after the one that it shares
with the locations of its name in other packages. The own branches of two locations are one branch
only if a package has the id that the other location's branch begins with.
-/

namespace Depot.Branch

/-- A location can have this name in settings that keep the rules. -/
def IsLocationName (name : String) : Prop :=
  ∃ s : Settings, s.validate = .ok () ∧ ∃ p ∈ s.packages, ∃ l ∈ p.locations, l.name = name

theorem isLocationName_iff {name : String} :
    IsLocationName name ↔ name ≠ "" ∧ '/' ∉ name.toList := by
  unfold IsLocationName
  constructor
  · rintro ⟨s, hvalid, p, hp, l, hl, rfl⟩
    obtain ⟨hpackages, -⟩ := Settings.validate_eq_ok.mp hvalid
    have hlocation := (hpackages p hp).locations l hl
    exact ⟨hlocation.name_ne, hlocation.slash_notMem⟩
  · rintro ⟨hne, hslash⟩
    have hpath : Path.normalize "." = .ok "." := by decide
    have hid : TargetId.parse "p" = .ok ⟨"p"⟩ := by decide
    have hlocation : LocationEntry.IsValid ⟨name, "."⟩ := ⟨hne, hslash, ".", hpath⟩
    have hpackage : PackageEntry.IsValid ⟨"p", [⟨name, "."⟩]⟩ := by
      constructor
      · exact ⟨⟨"p"⟩, hid⟩
      · simpa using hlocation
      · simp
    let s : Settings := ⟨⟨[], []⟩, "text", [⟨"p", [⟨name, "."⟩]⟩]⟩
    have hs : s.validate = .ok () := by
      apply Settings.validate_eq_ok.mpr
      constructor
      · simpa [s] using hpackage
      · simp [s]
    exact ⟨s, hs, _, List.mem_singleton_self _, _, List.mem_singleton_self _, rfl⟩

/-- What comes after the last separator, and what comes before it. -/
theorem append_cons_inj {α : Type} [DecidableEq α] {sep : α} {xs ys part part' : List α}
    (hpart : sep ∉ part) (hpart' : sep ∉ part') (h : xs ++ sep :: part = ys ++ sep :: part') :
    xs = ys ∧ part = part' := by
  have hsplit := congrArg (splitAtSep sep) h
  rw [splitAtSep_append_cons, splitAtSep_append_cons, splitAtSep_of_notMem hpart,
    splitAtSep_of_notMem hpart'] at hsplit
  obtain ⟨-, hlast⟩ := List.append_inj' hsplit rfl
  obtain rfl := List.singleton_injective hlast
  exact ⟨List.append_cancel_right h, rfl⟩

/-- What the own branch of a location is below. -/
def stem (package location : String) : String :=
  if location = defaultLocation then package else package ++ "/location/" ++ location

theorem candidates_eq (package location : String) :
    candidates package location =
      [if location = defaultLocation then "main" else "location/" ++ location ++ "/main",
        stem package location ++ "/main"] := by
  unfold candidates stem
  split_ifs <;> rfl

theorem stem_default (package : String) : stem package defaultLocation = package := if_pos rfl

theorem stem_of_ne {package location : String} (h : location ≠ defaultLocation) :
    stem package location = package ++ "/location/" ++ location := if_neg h

/-- Two named locations have one stem only if they are one location of one package. -/
theorem stem_inj_of_ne {p q n m : String} (hn : n ≠ defaultLocation) (hm : m ≠ defaultLocation)
    (hslash : '/' ∉ n.toList) (hslash' : '/' ∉ m.toList) :
    stem p n = stem q m ↔ p = q ∧ n = m := by
  constructor
  · intro h
    rw [stem_of_ne hn, stem_of_ne hm] at h
    have hchars : (p.toList ++ "/location".toList) ++ '/' :: n.toList =
        (q.toList ++ "/location".toList) ++ '/' :: m.toList := by
      have := congrArg String.toList h
      simpa using this
    obtain ⟨hfront, hname⟩ := append_cons_inj hslash hslash' hchars
    have hpackage := List.append_cancel_right hfront
    exact ⟨String.toList_inj.mp hpackage, String.toList_inj.mp hname⟩
  · rintro ⟨rfl, rfl⟩
    rfl

/-- Two locations have one stem if they are one location of one package. Otherwise one of them is
the default location of a package whose id is the stem of the other. -/
theorem stem_eq_stem_iff {p q n m : String} (hslash : '/' ∉ n.toList) (hslash' : '/' ∉ m.toList) :
    stem p n = stem q m ↔
      p = q ∧ n = m ∨
      n = defaultLocation ∧ m ≠ defaultLocation ∧ p = q ++ "/location/" ++ m ∨
      m = defaultLocation ∧ n ≠ defaultLocation ∧ q = p ++ "/location/" ++ n := by
  by_cases hn : n = defaultLocation
  · by_cases hm : m = defaultLocation
    · simp [hn, hm, stem_default]
    · rw [hn, stem_default, stem_of_ne hm]
      simp [hm, Ne.symm hm]
  · by_cases hm : m = defaultLocation
    · rw [hm, stem_default, stem_of_ne hn]
      simp [hn, eq_comm]
    · rw [stem_inj_of_ne hn hm hslash hslash']
      simp [hn, hm]

/-- A location has two branches, the shared one and its own, and they differ. The own branches of
two locations are one only if they are one location, or if one location is the default location of
a package whose id is made of the id of the other package, `/location/` and the name of the other
location. -/
theorem own_eq_own_iff {i j : TargetId} {n m : String} (hn : IsLocationName n)
    (hm : IsLocationName m) :
    (∃ shared own, candidates i.text n = [shared, own] ∧ shared ≠ own) ∧
      ((candidates i.text n)[1]? = (candidates j.text m)[1]? ↔
        i = j ∧ n = m ∨
        n = defaultLocation ∧ m ≠ defaultLocation ∧ i.text = j.text ++ "/location/" ++ m ∨
        m = defaultLocation ∧ n ≠ defaultLocation ∧ j.text = i.text ++ "/location/" ++ n) := by
  obtain ⟨-, hslash⟩ := isLocationName_iff.mp hn
  obtain ⟨-, hslash'⟩ := isLocationName_iff.mp hm
  constructor
  · refine ⟨_, _, candidates_eq i.text n, fun heq => ?_⟩
    have hlength := congrArg String.length heq
    have hmain : "main".length < "/main".length := by decide
    have hlocation : "location/".length < "/location/".length := by decide
    unfold stem at hlength
    split_ifs at hlength
    · rw [String.length_append] at hlength
      omega
    · simp only [String.length_append] at hlength
      omega
  · have htext : i = j ↔ i.text = j.text := by
      cases i
      cases j
      simp
    have hstems : stem i.text n ++ "/main" = stem j.text m ++ "/main" ↔
        stem i.text n = stem j.text m := by
      constructor
      · intro h
        have hchars := congrArg String.toList h
        rw [String.toList_append, String.toList_append] at hchars
        exact String.toList_inj.mp (List.append_cancel_right hchars)
      · intro h
        rw [h]
    rw [candidates_eq, candidates_eq, htext, ← stem_eq_stem_iff hslash hslash', ← hstems]
    simp

/-- The package `p/location/x` and the location `x` of the package `p` share a branch. -/
theorem own_eq_own_iff_nested :
    TargetId.parse "p/location/x" = .ok ⟨"p/location/x"⟩ ∧ TargetId.parse "p" = .ok ⟨"p"⟩ ∧
      IsLocationName defaultLocation ∧ IsLocationName "x" ∧
      (candidates "p/location/x" defaultLocation)[1]? = (candidates "p" "x")[1]? := by
  have hdefault : IsLocationName defaultLocation := isLocationName_iff.mpr (by decide)
  have hx : IsLocationName "x" := isLocationName_iff.mpr (by decide)
  obtain ⟨-, hiff⟩ := own_eq_own_iff (i := ⟨"p/location/x"⟩) (j := ⟨"p"⟩) hdefault hx
  refine ⟨by decide, by decide, hdefault, hx, hiff.mpr ?_⟩
  right
  left
  exact ⟨rfl, by decide, by decide⟩

end Depot.Branch
