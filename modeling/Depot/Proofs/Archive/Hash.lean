import Depot.Archive.Contents
import Depot.Archive.Fingerprint
import Depot.Proofs.Files.Tree
import Depot.Proofs.Path.Relative

/-!
The hash of a tree on its own. It is the same wherever the tree is found, and nothing but what the
root holds makes a difference; its text can be the name of an entry.
-/

namespace Depot

namespace Hex

theorem digit_mem {n : Nat} (h : n < 16) : digit n ∈ "0123456789abcdef".toList := by
  have hall : ∀ n : Fin 16, digit n ∈ "0123456789abcdef".toList := by decide
  exact hall ⟨n, h⟩

theorem mem_encode {bs : Bytes} {c : Char} (h : c ∈ encode bs) : c ∈ "0123456789abcdef".toList := by
  obtain ⟨b, -, hc⟩ := List.mem_flatMap.mp h
  have hb : b.toNat < 256 := b.toNat_lt
  simp only [List.mem_cons, List.not_mem_nil, or_false] at hc
  rcases hc with rfl | rfl <;> exact digit_mem (by omega)

theorem digit_injective {m n : Nat} (hm : m < 16) (hn : n < 16) (h : digit m = digit n) : m = n := by
  have hall : ∀ m n : Fin 16, digit m = digit n → m = n := by decide
  exact congrArg Fin.val (hall ⟨m, hm⟩ ⟨n, hn⟩ h)

theorem encode_injective {bs cs : Bytes} (h : encode bs = encode cs) : bs = cs := by
  induction bs generalizing cs with
  | nil =>
    cases cs with
    | nil => rfl
    | cons c cs => simp [encode] at h
  | cons b bs ih =>
    cases cs with
    | nil => simp [encode] at h
    | cons c cs =>
      simp only [encode, List.flatMap_cons, List.cons_append, List.nil_append, List.cons.injEq] at h
      obtain ⟨hhigh, hlow, hrest⟩ := h
      have hb : b.toNat < 256 := b.toNat_lt
      have hc : c.toNat < 256 := c.toNat_lt
      have h1 := digit_injective (by omega) (by omega) hhigh
      have h2 := digit_injective (by omega) (by omega) hlow
      have hbc : b = c := UInt8.toNat.inj (by omega)
      rw [hbc, ih hrest]

theorem isAscii_encode {bs : Bytes} : ∀ c ∈ encode bs, c.toNat < 0x80 := fun c hc =>
  (forall_mem_of_all (by decide) : ∀ c ∈ "0123456789abcdef".toList, c.toNat < 0x80) c (mem_encode hc)

theorem length_encode (bs : Bytes) : (encode bs).length = 2 * bs.length := by
  simp [encode, List.length_flatMap, List.map_const', Nat.mul_comm]

theorem isName_encode {bs : Bytes} (h : bs ≠ []) : Files.IsName (Utf8.encode (encode bs)) := by
  have hnot : ∀ c ∈ ['/', '\x00', '.'], c ∉ encode bs := fun c hc hmem =>
    (forall_mem_of_all (by decide) : ∀ c ∈ ['/', '\x00', '.'], c ∉ "0123456789abcdef".toList) c hc
      (mem_encode hmem)
  have hdot := hnot '.' (by simp)
  refine Path.isName_encode (hnot '/' (by simp)) (hnot '\x00' (by simp)) ?_
    (fun heq => hdot (by simp [heq])) (fun heq => hdot (by simp [heq]))
  obtain ⟨b, bs, rfl⟩ := List.exists_cons_of_ne_nil h
  simp [encode]

end Hex

theorem Sha256.length_digest (bs : Bytes) : (Sha256.digest bs).length = 32 := by
  simp [Sha256.digest, Sha256.Words.bytes, Sha256.bigEndian]

theorem Sha256.digest_ne_nil (bs : Bytes) : Sha256.digest bs ≠ [] :=
  List.ne_nil_of_length_pos (by rw [length_digest]; decide)

/-- The name of an archive in the directory of archives. -/
def ArchiveHash.name (h : ArchiveHash) : Files.Name := Utf8.ofString h.text

namespace Fingerprint

open Files

theorem isName_ofItems (is : List Tar.Item) : IsName (ofItems is).name := by
  have hname := Hex.isName_encode (Sha256.digest_ne_nil (Tar.stream is))
  rwa [← String.toList_ofList (l := Hex.encode _)] at hname

theorem length_name_ofItems (is : List Tar.Item) : (ofItems is).name.length = 64 := by
  rw [ArchiveHash.name, ofItems, ArchiveHash.ofDigest, Utf8.ofString, String.toList_ofList,
    Utf8.length_encode_ascii Hex.isAscii_encode, Hex.length_encode, Sha256.length_digest]

/-- The hash of a tree at a root that makes none of its paths too long. -/
def IsHash (node : Node) (h : ArchiveHash) : Prop :=
  ∃ root is, (node.beneath.mapM fun e => item root e.1 e.2) = .ok is ∧ ofItems is = h

/-- A tree that holds something and has the hash of the empty tree all the same. -/
def HashesAsEmpty (node : Node) : Prop := node.children ≠ [] ∧ IsHash node (ofItems [])

/-- The root only decides whether a path is too long. -/
theorem item_eq {root root' : Bytes} {place : Place} {node : Node} {i i' : Tar.Item}
    (h : item root place node = .ok i) (h' : item root' place node = .ok i') : i = i' := by
  simp only [item, throw, throwThe, MonadExceptOf.throw, bind, Except.bind, pure, Except.pure]
    at h h'
  split_ifs at h h'
  cases node with
  | file mode data =>
    cases hdata : Disk.contents (.file mode data) with
    | ok data' =>
      simp only [hdata] at h h'
      exact Except.ok.inj (h.symm.trans h')
    | error e =>
      simp only [hdata] at h
      cases h
  | special kind => cases h
  | _ => exact Except.ok.inj (h.symm.trans h')

theorem items_eq {root root' : Bytes} {es : List (Place × Node)} {is is' : List Tar.Item}
    (h : (es.mapM fun e => item root e.1 e.2) = .ok is)
    (h' : (es.mapM fun e => item root' e.1 e.2) = .ok is') : is = is' := by
  induction es generalizing is is' with
  | nil => exact Except.ok.inj (h.symm.trans h')
  | cons e es ih =>
    rw [List.mapM_cons] at h h'
    cases hi : item root e.1 e.2 with
    | error f => simp [hi, bind, Except.bind] at h
    | ok i =>
    cases hi' : item root' e.1 e.2 with
    | error f => simp [hi', bind, Except.bind] at h'
    | ok i' =>
    cases hr : es.mapM (fun e => item root e.1 e.2) with
    | error f => simp [hi, hr, bind, Except.bind] at h
    | ok rest =>
    cases hr' : es.mapM (fun e => item root' e.1 e.2) with
    | error f => simp [hi', hr', bind, Except.bind] at h'
    | ok rest' =>
      simp only [hi, hr, bind, Except.bind, pure, Except.pure] at h
      simp only [hi', hr', bind, Except.bind, pure, Except.pure] at h'
      obtain rfl := Except.ok.inj h
      obtain rfl := Except.ok.inj h'
      rw [item_eq hi hi', ih hr hr']

namespace IsHash

variable {node : Node} {h h' : ArchiveHash}

theorem unique (hn : IsHash node h) (hn' : IsHash node h') : h = h' := by
  obtain ⟨root, is, his, rfl⟩ := hn
  obtain ⟨root', is', his', rfl⟩ := hn'
  rw [items_eq his his']

theorem congr {other : Node} (hn : IsHash node h) (heq : other.children = node.children) :
    IsHash other h := by
  obtain ⟨root, is, his, hh⟩ := hn
  refine ⟨root, is, ?_, hh⟩
  rw [Node.beneath_eq, heq, ← Node.beneath_eq]
  exact his

theorem isName (hn : IsHash node h) : IsName h.name := by
  obtain ⟨-, is, -, rfl⟩ := hn
  exact isName_ofItems is

theorem eq_of_name_eq {other : Node} (hn : IsHash node h) (ho : IsHash other h')
    (hname : h.name = h'.name) : h = h' := by
  obtain ⟨-, is, -, rfl⟩ := hn
  obtain ⟨-, is', -, rfl⟩ := ho
  have hascii : ∀ c ∈ (ofItems is').text.toList, c.toNat < 0x80 := by
    rw [ofItems, ArchiveHash.ofDigest, String.toList_ofList]
    exact Hex.isAscii_encode
  have htext := String.toList_injective (Utf8.encode_ascii_inj hascii hname)
  exact congrArg ArchiveHash.mk htext

theorem of_ofTree {d : Disk} {root : Bytes} (hnode : d.stat root = .ok node)
    (hh : ofTree d root = .ok h) : IsHash node h := by
  rw [ofTree, items, hnode] at hh
  cases his : node.beneath.mapM (fun e => item root e.1 e.2) with
  | error f =>
    simp only [his] at hh
    cases hh
  | ok is =>
    simp only [his] at hh
    exact ⟨root, is, his, Except.ok.inj hh⟩

/-- What has the hash of an empty tree is empty, or hashes as one all the same. -/
theorem children_eq_or {other : Node} (hn : IsHash node h) (ho : IsHash other h)
    (hempty : node.children = []) : other.children = node.children ∨ HashesAsEmpty other := by
  by_cases hother : other.children = []
  · exact .inl (hother.trans hempty.symm)
  · have hnil : IsHash node (ofItems []) := ⟨[], [], by rw [Node.beneath_eq, hempty]; rfl, rfl⟩
    exact .inr ⟨hother, hn.unique hnil ▸ ho⟩

end IsHash

end Fingerprint

end Depot
