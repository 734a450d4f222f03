import Depot.History.Refs
import Depot.Proofs.Files.Spelling

/-!
What the refs of a repository can give: an id is forty lowercase hexadecimal digits, and the name it
is found under is valid, so that its parts can be names of files.
-/

namespace Depot

open Files

namespace Octets

theorem toNat_lt_of_mem_ofBytes {bs : Bytes} {c : Char} (h : c ∈ ofBytes bs) : c.toNat < 256 := by
  obtain ⟨b, -, rfl⟩ := List.mem_map.mp h
  have hb : b.toNat < 256 := b.toNat_lt
  have hvalid : b.toNat.isValidChar := .inl (by omega)
  rw [Char.ofNat, dif_pos hvalid]
  exact hb

theorem ofBytes_toBytes {cs : Octets} (h : ∀ c ∈ cs, c.toNat < 256) : ofBytes (toBytes cs) = cs := by
  rw [ofBytes, toBytes, List.map_map]
  conv_rhs => rw [← List.map_id cs]
  refine List.map_congr_left fun c hc => ?_
  rw [Function.comp_apply, UInt8.toNat_ofNat', Nat.mod_eq_of_lt (h c hc), Char.ofNat_toNat, id]

theorem splitAtSep_toBytes {cs : Octets} (h : ∀ c ∈ cs, c.toNat < 256) :
    splitAtSep Path.slash (toBytes cs) = (splitAtSep '/' cs).map toBytes := by
  induction cs with
  | nil => rfl
  | cons c cs ih =>
    obtain ⟨hc, hcs⟩ := List.forall_mem_cons.mp h
    have hslash : UInt8.ofNat c.toNat = Path.slash ↔ c = '/' := by
      refine ⟨fun heq => ?_, fun heq => heq ▸ rfl⟩
      have hnat := congrArg UInt8.toNat heq
      rw [UInt8.toNat_ofNat', Nat.mod_eq_of_lt hc] at hnat
      exact Char.toNat_inj.mp hnat
    have hrest : splitAtSep Path.slash (toBytes cs) = (splitAtSep '/' cs).map toBytes := ih hcs
    rw [toBytes, List.map_cons, ← toBytes, splitAtSep, splitAtSep, hrest]
    by_cases heq : c = '/'
    · rw [if_pos (hslash.mpr heq), if_pos heq]
      rfl
    · rw [if_neg fun hs => heq (hslash.mp hs), if_neg heq]
      cases splitAtSep '/' cs <;> rfl

end Octets

theorem toNat_lt_of_mem_octets {s : String} {c : Char} (h : c ∈ octets s) : c.toNat < 256 :=
  Octets.toNat_lt_of_mem_ofBytes h

theorem octets_append (s t : String) : octets (s ++ t) = octets s ++ octets t := by
  simp [octets, Octets.ofBytes, Utf8.ofString, Utf8.encode]

theorem Hex.toLower_mem {c : Char} (h : (value? c).isSome) :
    c.toLower ∈ "0123456789abcdef".toList := by
  have hlt : c.toNat < 128 := by
    simp only [value?] at h
    split_ifs at h with h1 h2 h3
    · exact Nat.lt_of_le_of_lt h1.2 (by decide)
    · exact Nat.lt_of_le_of_lt h2.2 (by decide)
    · exact Nat.lt_of_le_of_lt h3.2 (by decide)
    · cases h
  have hall : ∀ n : Fin 128, (value? (Char.ofNat n)).isSome →
      (Char.ofNat n).toLower ∈ "0123456789abcdef".toList := by decide
  have hc := hall ⟨c.toNat, hlt⟩
  rw [Char.ofNat_toNat] at hc
  exact hc h

namespace Refs

/-- An id as a repository gives it: forty lowercase hexadecimal digits. -/
structure IsId (id : Octets) : Prop where
  length : id.length = idLength
  digits : ∀ c ∈ id, c ∈ "0123456789abcdef".toList

theorem IsId.ne_nil {id : Octets} (h : IsId id) : id ≠ [] := by
  rintro rfl
  cases h.length

theorem isId_of_leadingId? {cs id : Octets} (h : leadingId? cs = some id) : IsId id := by
  simp only [leadingId?] at h
  split_ifs at h with hid
  obtain rfl := Option.some.inj h
  refine ⟨by rw [List.length_map, hid.1], fun c hc => ?_⟩
  obtain ⟨digit, hdigit, rfl⟩ := List.mem_map.mp hc
  exact Hex.toLower_mem (List.all_eq_true.mp hid.2 digit hdigit)

/-- An id can be read back from whatever it starts. -/
theorem IsId.leadingId?_append {id : Octets} (h : IsId id) (rest : Octets) :
    leadingId? (id ++ rest) = some id := by
  have htake : (id ++ rest).take idLength = id := List.take_left' h.length
  have hdigit : ∀ c ∈ id, (Hex.value? c).isSome ∧ c.toLower = c := fun c hc =>
    (forall_mem_of_all (by decide) : ∀ c ∈ "0123456789abcdef".toList,
      (Hex.value? c).isSome ∧ c.toLower = c) c (h.digits c hc)
  have hlower : id.map Char.toLower = id := by
    conv_rhs => rw [← List.map_id id]
    exact List.map_congr_left fun c hc => (hdigit c hc).2
  simp only [leadingId?]
  rw [htake, if_pos ⟨h.length, List.all_eq_true.mpr fun c hc => (hdigit c hc).1⟩, hlower]

theorem isId_of_parse {data : Bytes} {id : Octets} (h : parse data = .ok (.commit id)) : IsId id := by
  simp only [parse] at h
  split at h
  · cases Except.ok.inj h
  · split at h
    · next id' hid =>
      split_ifs at h
      obtain rfl := Value.commit.inj (Except.ok.inj h)
      exact isId_of_leadingId? hid
    · cases h

theorem isId_of_readLoose {d : Disk} {repo : Bytes} {name id : Octets}
    (h : readLoose d repo name = .ok (.commit id)) : IsId id := by
  simp only [readLoose] at h
  cases hread : d.read (Path.join repo (Octets.toBytes name)) with
  | ok data =>
    simp only [hread] at h
    split at h
    · cases h
    · cases h
    · cases h
    · split at h
      · split_ifs at h
        · cases Except.ok.inj h
        · exact isId_of_parse h
      · exact isId_of_parse h
  | error e =>
    simp only [hread] at h
    split at h
    · cases h
    · cases h
    · cases h
    · split at h
      · split_ifs at h
        cases Except.ok.inj h
      · cases h

namespace Table

variable {t : Table} {name id : Octets}

theorem isId_of_packedValue {lack : Lack} (h : t.packedValue lack name = .ok (.commit id)) :
    IsId id := by
  rw [packedValue] at h
  split at h
  · cases h
  · next p _ =>
    split at h
    · next id' hid =>
      obtain rfl := Value.commit.inj (Except.ok.inj h)
      exact isId_of_leadingId? hid
    · cases h

theorem isId_of_value (h : t.value name = .ok (.commit id)) : IsId id := by
  rw [value] at h
  split at h
  · exact isId_of_packedValue h
  · exact isId_of_packedValue h
  · exact isId_of_readLoose h

theorem of_follow {links : Nat} (h : t.follow links name = .ok id) :
    IsId id ∧ RefName.isValid name = true := by
  induction links generalizing name with
  | zero => cases h
  | succ links ih =>
    rw [follow] at h
    split_ifs at h with hvalid
    refine ⟨?_, by simpa using hvalid⟩
    cases hv : t.value name with
    | error lack =>
      rw [hv] at h
      cases h
    | ok v =>
      rw [hv] at h
      cases v with
      | commit id' =>
        obtain rfl := Except.ok.inj h
        exact isId_of_value hv
      | symbolic next => exact (ih h).1

theorem of_id? (h : t.id? name = .ok (some id)) : t.follow linkLimit name = .ok id := by
  rw [id?] at h
  split at h
  · next heq =>
    obtain rfl := Option.some.inj (Except.ok.inj h)
    exact heq
  · cases h
  · cases h

theorem of_first? {names : List Octets} (h : t.first? names = .ok (some (name, id))) :
    name ∈ names ∧ t.id? name = .ok (some id) := by
  induction names with
  | nil => cases h
  | cons n names ih =>
    rw [first?] at h
    cases hn : t.id? n with
    | error damage =>
      rw [hn] at h
      cases h
    | ok found? =>
      rw [hn] at h
      cases found? with
      | some id' =>
        obtain ⟨rfl, rfl⟩ := Prod.mk.inj (Option.some.inj (Except.ok.inj h))
        exact ⟨List.mem_cons_self, hn⟩
      | none =>
        obtain ⟨hmem, hid⟩ := ih h
        exact ⟨List.mem_cons_of_mem _ hmem, hid⟩

end Table

end Refs

namespace RefName

variable {name : Octets}

theorem isPart_of_mem (h : isValid name = true) {part : Octets} (hpart : part ∈ splitAtSep '/' name) :
    isPart part = true := by
  simp only [isValid, Bool.and_eq_true, List.all_eq_true] at h
  exact h.2 part hpart

/-- No blank and no control character is in a valid name. -/
theorem not_le_of_mem (h : isValid name = true) {c : Char} (hc : c ∈ name) : ¬ c ≤ ' ' := by
  rw [← joinWith_splitAtSep '/' name] at hc
  rcases mem_joinWith hc with hc | ⟨part, hpart, hc⟩
  · rw [List.mem_singleton.mp hc]
    decide
  · have hp := isPart_of_mem h hpart
    simp only [isPart, Bool.and_eq_true, Bool.not_eq_true', List.any_eq_false] at hp
    have hforbidden := hp.1.1.2 c hc
    intro hle
    simp [isForbidden, hle] at hforbidden

/-- The names of the files on the way to the one of a ref. -/
def fileNames (name : Octets) : Place := (splitAtSep '/' name).map Octets.toBytes

theorem joinWith_fileNames (hc : ∀ c ∈ name, c.toNat < 256) :
    joinWith [Path.slash] (fileNames name) = Octets.toBytes name := by
  rw [fileNames, ← Octets.splitAtSep_toBytes hc, joinWith_splitAtSep]

theorem isName_of_mem_fileNames (h : isValid name = true) (hc : ∀ c ∈ name, c.toNat < 256) :
    ∀ n ∈ fileNames name, IsName n := by
  intro n hn
  have hslash : Path.slash ∉ n := by
    rw [fileNames, ← Octets.splitAtSep_toBytes hc] at hn
    exact sep_notMem_of_mem_splitAtSep hn
  obtain ⟨part, hpart, rfl⟩ := List.mem_map.mp hn
  have hp := isPart_of_mem h hpart
  simp only [isPart, Bool.and_eq_true, decide_eq_true_eq, ne_eq] at hp
  obtain ⟨⟨⟨⟨⟨hne, hdot⟩, -⟩, -⟩, -⟩, -⟩ := hp
  have hbytes : ∀ c ∈ part, (UInt8.ofNat c.toNat).toNat = c.toNat := fun c hm => by
    rw [UInt8.toNat_ofNat', Nat.mod_eq_of_lt (hc c (mem_of_mem_splitAtSep hpart hm))]
  obtain ⟨c, cs, rfl⟩ := List.exists_cons_of_ne_nil hne
  have hc' : UInt8.ofNat c.toNat ≠ Path.dot := by
    intro heq
    have hnat := hbytes c List.mem_cons_self
    rw [heq] at hnat
    exact hdot (by rw [List.head?_cons, Char.toNat_inj.mp (hnat.symm.trans rfl : c.toNat = '.'.toNat)])
  refine ⟨by simp [Octets.toBytes], fun heq => hc' (List.cons.inj heq).1,
    fun heq => hc' (List.cons.inj heq).1, hslash, fun h0 => ?_⟩
  obtain ⟨c, hm, h0⟩ := List.mem_map.mp h0
  have hnat := hbytes c hm
  rw [h0] at hnat
  exact not_le_of_mem h (mem_of_mem_splitAtSep hpart hm) (Char.le_def.mpr
    (UInt32.le_iff_toNat_le.mpr (Nat.le_trans (Nat.le_of_eq hnat.symm) (Nat.zero_le _))))

end RefName

end Depot
