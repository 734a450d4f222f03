import Depot.Proofs.Text.Parts
import Depot.Text.Utf8

/-! Separators and short names survive in the UTF-8 form of a text. -/

namespace Depot

namespace Utf8

theorem encode_cons (c : Char) (cs : List Char) :
    encode (c :: cs) = String.utf8EncodeChar c ++ encode cs := rfl

/-- A byte below 128 stands for itself alone. -/
theorem of_mem_encodeChar {c : Char} {b : UInt8} (hb : b.toNat < 0x80)
    (h : b ∈ String.utf8EncodeChar c) : String.utf8EncodeChar c = [b] ∧ c.toNat = b.toNat := by
  rw [String.utf8EncodeChar] at h ⊢
  split_ifs at h ⊢ with h1 h2 h3
  · obtain rfl := List.mem_singleton.mp h
    refine ⟨rfl, ?_⟩
    rw [UInt8.toNat_ofNat', Nat.mod_eq_of_lt (by omega)]
    rfl
  all_goals
    simp only [List.mem_cons, List.not_mem_nil, or_false] at h
    rcases h with rfl | rfl | rfl | rfl <;> rw [UInt8.toNat_ofNat'] at hb <;> omega

theorem encodeChar_ascii {c : Char} (h : c.toNat < 0x80) :
    String.utf8EncodeChar c = [UInt8.ofNat c.toNat] := by
  rw [String.utf8EncodeChar, if_pos (show c.val.toNat ≤ 0x7f from Nat.le_of_lt_succ h)]
  rfl

theorem mem_of_mem_encode {cs : List Char} {c : Char} (hc : c.toNat < 0x80)
    (h : UInt8.ofNat c.toNat ∈ encode cs) : c ∈ cs := by
  obtain ⟨d, hd, hmem⟩ := List.mem_flatMap.mp h
  have hb : (UInt8.ofNat c.toNat).toNat = c.toNat := by
    rw [UInt8.toNat_ofNat', Nat.mod_eq_of_lt (by omega)]
  have heq := (of_mem_encodeChar (by omega) hmem).2
  rw [hb] at heq
  rwa [← Char.toNat_inj.mp heq]

theorem encode_joinWith (sep : List Char) (parts : List (List Char)) :
    encode (joinWith sep parts) = joinWith (encode sep) (parts.map encode) := by
  induction parts with
  | nil => rfl
  | cons part parts ih =>
    cases parts with
    | nil => rfl
    | cons next parts =>
      rw [joinWith_cons_cons, List.map_cons, List.map_cons, joinWith_cons_cons, ← List.map_cons, ← ih]
      simp [encode]

theorem encodeChar_ne_nil (c : Char) : String.utf8EncodeChar c ≠ [] := String.utf8EncodeChar_ne_nil

theorem eq_nil_of_encode {cs : List Char} (h : encode cs = []) : cs = [] := by
  cases cs with
  | nil => rfl
  | cons c cs =>
    rw [encode_cons, List.append_eq_nil_iff] at h
    exact absurd h.1 (encodeChar_ne_nil c)

/-- No other text has the form of a text of ASCII characters. -/
theorem encode_ascii_inj {cs ds : List Char} (hds : ∀ d ∈ ds, d.toNat < 0x80)
    (h : encode cs = encode ds) : cs = ds := by
  induction ds generalizing cs with
  | nil => exact eq_nil_of_encode h
  | cons d ds ih =>
    obtain ⟨hd, hds⟩ := List.forall_mem_cons.mp hds
    cases cs with
    | nil =>
      have hnil : d :: ds = [] := eq_nil_of_encode h.symm
      cases hnil
    | cons c cs =>
      rw [encode_cons, encode_cons, encodeChar_ascii hd, List.singleton_append] at h
      obtain ⟨b, bs, hb⟩ := List.exists_cons_of_ne_nil (encodeChar_ne_nil c)
      rw [hb, List.cons_append] at h
      obtain ⟨hhead, htail⟩ := List.cons.inj h
      have hmem : UInt8.ofNat d.toNat ∈ encode [c] := by
        rw [encode_cons, hb, hhead]
        exact List.mem_cons_self
      have hdc : d = c := List.mem_singleton.mp (mem_of_mem_encode hd hmem)
      subst hdc
      rw [encodeChar_ascii hd] at hb
      obtain ⟨-, rfl⟩ := List.cons.inj hb
      rw [ih hds htail]

theorem length_encode_ascii {cs : List Char} (h : ∀ c ∈ cs, c.toNat < 0x80) :
    (encode cs).length = cs.length := by
  induction cs with
  | nil => rfl
  | cons c cs ih =>
    obtain ⟨hc, hcs⟩ := List.forall_mem_cons.mp h
    rw [encode_cons, encodeChar_ascii hc, List.singleton_append, List.length_cons, ih hcs,
      List.length_cons]

/-- Reading undoes writing, for ASCII characters. -/
theorem lossy_encode_ascii {cs : List Char} (h : ∀ c ∈ cs, c.toNat < 0x80) :
    lossy (encode cs) = cs := by
  induction cs with
  | nil => rfl
  | cons c cs ih =>
    obtain ⟨hc, hcs⟩ := List.forall_mem_cons.mp h
    have hb : (UInt8.ofNat c.toNat).toNat = c.toNat := by
      rw [UInt8.toNat_ofNat', Nat.mod_eq_of_lt (by omega)]
    have hrest := ih hcs
    rw [lossy] at hrest
    rw [encode_cons, encodeChar_ascii hc, List.singleton_append, lossy, pieces, hb, feed, begin?,
      if_pos hc, List.singleton_append, List.map_cons, hrest, Char.ofNat_toNat]
    rfl

end Utf8

end Depot
