import Depot.Path.Relative
import Depot.Proofs.Files.Spelling
import Depot.Proofs.Text.Utf8

/-! The normal form of a relative path is a list of names, or stands for the root. -/

namespace Depot.Path

open Files

/-- What a normal path says: the names of a place. -/
structure IsPlace (path : String) (place : Place) : Prop where
  ne_nil : place ≠ []
  names : ∀ n ∈ place, IsName n
  text : Utf8.ofString path = joinWith [slash] place

theorem isName_encode {part : List Char} (hslash : '/' ∉ part) (hnul : '\x00' ∉ part)
    (hne : part ≠ []) (hdot : part ≠ ['.']) (hup : part ≠ ['.', '.']) :
    IsName (Utf8.encode part) := by
  refine ⟨fun h => hne (Utf8.eq_nil_of_encode h), fun h => hdot ?_, fun h => hup ?_, fun h => ?_,
    fun h => ?_⟩
  · exact Utf8.encode_ascii_inj (forall_mem_of_all (by decide)) (h.trans rfl)
  · exact Utf8.encode_ascii_inj (forall_mem_of_all (by decide)) (h.trans rfl)
  · exact hslash (Utf8.mem_of_mem_encode (by decide) h)
  · exact hnul (Utf8.mem_of_mem_encode (by decide) h)

/-- A path that is accepted is the root or a list of names. -/
theorem of_normalize_ok {path normal : String} (h : normalize path = .ok normal) :
    normal = "." ∨ ∃ place, IsPlace normal place := by
  rw [normalize, normalize?] at h
  cases hf : fault? path.toList with
  | some fault => simp [hf] at h
  | none =>
    simp only [hf] at h
    obtain rfl := Except.ok.inj h
    rw [fault?] at hf
    split_ifs at hf with habs hnul hup
    cases hnames : names path.toList with
    | nil => exact .inl rfl
    | cons part parts =>
      refine .inr ⟨(part :: parts).map Utf8.encode, by simp, fun n hn => ?_, ?_⟩
      · obtain ⟨p, hp, rfl⟩ := List.mem_map.mp hn
        rw [← hnames] at hp
        obtain ⟨hmem, hsays⟩ := List.mem_filter.mp hp
        simp only [decide_eq_true_eq] at hsays
        refine isName_encode (sep_notMem_of_mem_splitAtSep hmem)
          (fun h0 => hnul (mem_of_mem_splitAtSep hmem h0)) hsays.1 hsays.2 ?_
        rintro rfl
        exact hup (List.contains_iff_mem.mpr hmem)
      · have hparts : ofNames (part :: parts) = joinWith ['/'] (part :: parts) := rfl
        rw [Utf8.ofString, String.toList_ofList, hparts, Utf8.encode_joinWith]
        rfl

theorem IsPlace.join_eq {path : String} {place : Place} (h : IsPlace path place) (base : Bytes) :
    join base (Utf8.ofString path) = below base place := by
  rw [h.text, below]

end Depot.Path
