import Depot.Proofs.Text.Utf8

/-!
Reading UTF-8 undoes writing it. Bytes that are read without a gap are the form of the text that was
read, and no other bytes are.
-/

namespace Depot.Utf8

theorem toNat_ofNat {n : Nat} (h : n.isValidChar) : (Char.ofNat n).val.toNat = n := by
  rw [Char.ofNat, dif_pos h]
  rfl

theorem pieces_last {high lo hi b : Nat} {byte : UInt8} (hb : byte.toNat = b) (hlo : lo ≤ b)
    (hhi : b ≤ hi) (bs : Bytes) :
    pieces (.more 0 high lo hi) (byte :: bs) =
      some (Char.ofNat (high * 64 + (b - 0x80))) :: pieces .idle bs := by
  simp [pieces, feed, hb, hlo, hhi]

theorem pieces_next {need high lo hi b : Nat} {byte : UInt8} (hb : byte.toNat = b) (hlo : lo ≤ b)
    (hhi : b ≤ hi) (bs : Bytes) :
    pieces (.more (need + 1) high lo hi) (byte :: bs) =
      pieces (.more need (high * 64 + (b - 0x80)) 0x80 0xBF) bs := by
  simp [pieces, feed, hb, hlo, hhi]

theorem toNat_byte {n : Nat} (h : n < 256) : (UInt8.ofNat n).toNat = n := by
  rw [UInt8.toNat_ofNat', Nat.mod_eq_of_lt h]

theorem pieces_encodeChar (c : Char) (bs : Bytes) :
    pieces .idle (String.utf8EncodeChar c ++ bs) = some c :: pieces .idle bs := by
  have hc : Char.ofNat c.val.toNat = c := Char.ofNat_toNat c
  have hvalid : c.val.toNat.isValidChar := c.valid
  rw [String.utf8EncodeChar]
  generalize c.val.toNat = v at hc hvalid
  rw [Nat.isValidChar] at hvalid
  split_ifs with h1 h2 h3
  · have hbegin : begin? v = ([some c], .idle) := by rw [begin?, if_pos (by omega), hc]
    simp [pieces, feed, toNat_byte (show v < 256 by omega), hbegin]
  · have hbegin : begin? (v / 64 % 32 + 192) = ([], .more 0 (v / 64) 0x80 0xBF) := by
      rw [begin?, if_neg (by omega), if_neg (by omega), if_pos (by omega),
        show v / 64 % 32 + 192 - 0xC0 = v / 64 by omega]
    rw [List.cons_append, pieces, feed, toNat_byte (by omega), hbegin, List.nil_append,
      List.cons_append, pieces_last (toNat_byte (by omega)) (by omega) (by omega), List.nil_append,
      show v / 64 * 64 + (v % 64 + 128 - 0x80) = v by omega, hc]
  · have hbegin : begin? (v / 4096 % 16 + 224) = ([], .more 1 (v / 4096)
        (if v / 4096 % 16 + 224 = 0xE0 then 0xA0 else 0x80)
        (if v / 4096 % 16 + 224 = 0xED then 0x9F else 0xBF)) := by
      rw [begin?, if_neg (by omega), if_neg (by omega), if_neg (by omega), if_pos (by omega),
        show v / 4096 % 16 + 224 - 0xE0 = v / 4096 by omega]
    rw [List.cons_append, pieces, feed, toNat_byte (by omega), hbegin, List.nil_append,
      List.cons_append, pieces_next (toNat_byte (by omega)) (by split_ifs <;> omega)
      (by split_ifs <;> omega), List.cons_append,
      pieces_last (toNat_byte (by omega)) (by omega) (by omega), List.nil_append,
      show (v / 4096 * 64 + (v / 64 % 64 + 128 - 0x80)) * 64 + (v % 64 + 128 - 0x80) = v by omega, hc]
  · have hbegin : begin? (v / 262144 % 8 + 240) = ([], .more 2 (v / 262144)
        (if v / 262144 % 8 + 240 = 0xF0 then 0x90 else 0x80)
        (if v / 262144 % 8 + 240 = 0xF4 then 0x8F else 0xBF)) := by
      rw [begin?, if_neg (by omega), if_neg (by omega), if_neg (by omega), if_neg (by omega),
        if_pos (by omega), show v / 262144 % 8 + 240 - 0xF0 = v / 262144 by omega]
    rw [List.cons_append, pieces, feed, toNat_byte (by omega), hbegin, List.nil_append,
      List.cons_append, pieces_next (toNat_byte (by omega)) (by split_ifs <;> omega)
      (by split_ifs <;> omega), List.cons_append,
      pieces_next (toNat_byte (by omega)) (by omega) (by omega), List.cons_append,
      pieces_last (toNat_byte (by omega)) (by omega) (by omega), List.nil_append,
      show ((v / 262144 * 64 + (v / 4096 % 64 + 128 - 0x80)) * 64 + (v / 64 % 64 + 128 - 0x80)) * 64 +
        (v % 64 + 128 - 0x80) = v by omega, hc]

theorem pieces_encode (cs : List Char) : pieces .idle (encode cs) = cs.map some := by
  induction cs with
  | nil => rfl
  | cons c cs ih => rw [encode_cons, pieces_encodeChar, ih, List.map_cons]

theorem mapM_id_map_some {α : Type} (xs : List α) : (xs.map some).mapM id = some xs := by
  induction xs with
  | nil => rfl
  | cons x xs ih => simp [ih]

@[simp] theorem decode?_encode (cs : List Char) : decode? (encode cs) = some cs := by
  rw [decode?, pieces_encode, mapM_id_map_some]

@[simp] theorem lossy_encode (cs : List Char) : lossy (encode cs) = cs := by
  rw [lossy, pieces_encode, List.map_map]
  exact List.map_id cs

section converse

variable {need high lo hi : Nat} {bs : Bytes} {cs : List Char}

theorem of_pieces_last (h : pieces (.more 0 high lo hi) bs = cs.map some) :
    ∃ byte rest cs', bs = byte :: rest ∧ lo ≤ byte.toNat ∧ byte.toNat ≤ hi ∧
      cs = Char.ofNat (high * 64 + (byte.toNat - 0x80)) :: cs' ∧
      pieces .idle rest = cs'.map some := by
  cases bs with
  | nil =>
    cases cs <;> simp [pieces] at h
  | cons byte rest =>
    by_cases hb : lo ≤ byte.toNat ∧ byte.toNat ≤ hi
    · rw [pieces_last rfl hb.1 hb.2] at h
      cases cs with
      | nil => cases h
      | cons c cs =>
        obtain ⟨hc, hrest⟩ := List.cons.inj h
        exact ⟨byte, rest, cs, rfl, hb.1, hb.2, by rw [Option.some.inj hc], hrest⟩
    · cases cs <;> simp [pieces, feed, hb] at h

theorem of_pieces_next (h : pieces (.more (need + 1) high lo hi) bs = cs.map some) :
    ∃ byte rest, bs = byte :: rest ∧ lo ≤ byte.toNat ∧ byte.toNat ≤ hi ∧
      pieces (.more need (high * 64 + (byte.toNat - 0x80)) 0x80 0xBF) rest = cs.map some := by
  cases bs with
  | nil =>
    cases cs <;> simp [pieces] at h
  | cons byte rest =>
    by_cases hb : lo ≤ byte.toNat ∧ byte.toNat ≤ hi
    · rw [pieces_next rfl hb.1 hb.2] at h
      exact ⟨byte, rest, rfl, hb.1, hb.2, h⟩
    · cases cs <;> simp [pieces, feed, hb] at h

theorem byte_eq {n : Nat} {byte : UInt8} (h : n = byte.toNat) : UInt8.ofNat n = byte := by
  rw [h, UInt8.ofNat_toNat]

/-- A character that is read from a few bytes has these bytes. -/
theorem exists_encodeChar {byte : UInt8} {rest : Bytes}
    (h : pieces .idle (byte :: rest) = cs.map some) :
    ∃ c cs' bs, cs = c :: cs' ∧ byte :: rest = String.utf8EncodeChar c ++ bs ∧
      bs.length ≤ rest.length ∧ pieces .idle bs = cs'.map some := by
  rw [pieces, feed, begin?] at h
  by_cases h1 : byte.toNat < 0x80
  · rw [if_pos h1] at h
    cases cs with
    | nil => cases h
    | cons c cs =>
      obtain ⟨hc, hrest⟩ := List.cons.inj h
      obtain rfl := Option.some.inj hc
      refine ⟨_, cs, rest, rfl, ?_, Nat.le_refl _, hrest⟩
      rw [String.utf8EncodeChar, toNat_ofNat (.inl (by omega)), if_pos (by omega), byte_eq rfl]
      rfl
  rw [if_neg h1] at h
  by_cases h2 : byte.toNat < 0xC2
  · rw [if_pos h2] at h
    cases cs <;> cases h
  rw [if_neg h2] at h
  by_cases h3 : byte.toNat < 0xE0
  · rw [if_pos h3] at h
    obtain ⟨b, rest, cs, rfl, hlo, hhi, rfl, hrest⟩ := of_pieces_last h
    refine ⟨_, cs, rest, rfl, ?_, by simp, hrest⟩
    rw [String.utf8EncodeChar, toNat_ofNat (.inl (by omega)), if_neg (by omega), if_pos (by omega),
      byte_eq (by omega : _ = byte.toNat), byte_eq (by omega : _ = b.toNat)]
    rfl
  rw [if_neg h3] at h
  by_cases h4 : byte.toNat < 0xF0
  · rw [if_pos h4] at h
    obtain ⟨b, rest, rfl, hlo, hhi, h⟩ := of_pieces_next h
    obtain ⟨b', rest, cs, rfl, hlo', hhi', rfl, hrest⟩ := of_pieces_last h
    have hlarge : 2048 ≤ ((byte.toNat - 0xE0) * 64 + (b.toNat - 0x80)) * 64 + (b'.toNat - 0x80) := by
      split_ifs at hlo <;> omega
    -- no surrogates: after 0xED the next byte is small
    have hvalid : ((byte.toNat - 0xE0) * 64 + (b.toNat - 0x80)) * 64 + (b'.toNat - 0x80) < 55296 ∨
        57343 < ((byte.toNat - 0xE0) * 64 + (b.toNat - 0x80)) * 64 + (b'.toNat - 0x80) := by
      split_ifs at hhi <;> omega
    have hb : 0x80 ≤ b.toNat := by split_ifs at hlo <;> omega
    have hb' : b.toNat ≤ 0xBF := by split_ifs at hhi <;> omega
    refine ⟨_, cs, rest, rfl, ?_, by simp; omega, hrest⟩
    rw [String.utf8EncodeChar, toNat_ofNat (hvalid.imp_right fun h => ⟨h, by omega⟩),
      if_neg (by omega), if_neg (by omega), if_pos (by omega),
      byte_eq (by omega : _ = byte.toNat), byte_eq (by omega : _ = b.toNat),
      byte_eq (by omega : _ = b'.toNat)]
    rfl
  rw [if_neg h4] at h
  by_cases h5 : byte.toNat < 0xF5
  · rw [if_pos h5] at h
    obtain ⟨b, rest, rfl, hlo, hhi, h⟩ := of_pieces_next h
    obtain ⟨b', rest, rfl, hlo', hhi', h⟩ := of_pieces_next h
    obtain ⟨b'', rest, cs, rfl, hlo'', hhi'', rfl, hrest⟩ := of_pieces_last h
    have hlarge : 65535 < (((byte.toNat - 0xF0) * 64 + (b.toNat - 0x80)) * 64 +
        (b'.toNat - 0x80)) * 64 + (b''.toNat - 0x80) := by
      split_ifs at hlo <;> omega
    have hvalid : (((byte.toNat - 0xF0) * 64 + (b.toNat - 0x80)) * 64 +
        (b'.toNat - 0x80)) * 64 + (b''.toNat - 0x80) < 1114112 := by
      split_ifs at hhi <;> omega
    have hb : 0x80 ≤ b.toNat := by split_ifs at hlo <;> omega
    have hb' : b.toNat ≤ 0xBF := by split_ifs at hhi <;> omega
    refine ⟨_, cs, rest, rfl, ?_, by simp; omega, hrest⟩
    rw [String.utf8EncodeChar, toNat_ofNat (.inr ⟨by omega, hvalid⟩),
      if_neg (by omega), if_neg (by omega), if_neg (by omega),
      byte_eq (by omega : _ = byte.toNat), byte_eq (by omega : _ = b.toNat),
      byte_eq (by omega : _ = b'.toNat), byte_eq (by omega : _ = b''.toNat)]
    rfl
  · rw [if_neg h5] at h
    cases cs <;> cases h

theorem encode_of_pieces (h : pieces .idle bs = cs.map some) : encode cs = bs := by
  induction hn : bs.length using Nat.strongRecOn generalizing bs cs with
  | ind n ih =>
  cases bs with
  | nil => cases cs <;> simp [pieces] at h ⊢; rfl
  | cons byte rest =>
    obtain ⟨c, cs, bs, rfl, heq, hlen, hrest⟩ := exists_encodeChar h
    rw [encode_cons, heq, ih bs.length (by rw [← hn, List.length_cons]; omega) hrest rfl]

theorem of_mapM_id {α : Type} {xs : List (Option α)} {ys : List α} (h : xs.mapM id = some ys) :
    xs = ys.map some := by
  induction xs generalizing ys with
  | nil =>
    obtain rfl : [] = ys := by simpa using h
    rfl
  | cons x xs ih =>
    cases x with
    | none => simp at h
    | some x =>
      cases hxs : xs.mapM id with
      | none => simp [hxs] at h
      | some zs =>
        obtain rfl : x :: zs = ys := by simpa [hxs] using h
        rw [ih hxs, List.map_cons]

/-- Well-formed bytes are the form of the text that is read from them. -/
theorem encode_of_decode? (h : decode? bs = some cs) : encode cs = bs :=
  encode_of_pieces (of_mapM_id h)

theorem encode_lossy (h : IsValid bs) : encode (lossy bs) = bs := by
  obtain ⟨cs, hcs⟩ := Option.isSome_iff_exists.mp h
  rw [← encode_of_decode? hcs, lossy_encode]

end converse

end Depot.Utf8
