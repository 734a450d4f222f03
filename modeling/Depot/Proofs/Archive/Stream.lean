import Depot.Archive.TarStream
import Depot.Proofs.Text.Parts
import Mathlib.Tactic.Ring

/-!
Reading an archive stream back. Each entry is a run of chunks, a header and padded data, and a
header tells how much data follows it; so a stream determines what it tells of each of its items.
-/

namespace Depot.Tar

theorem octalDigits_length (digits n : Nat) : (octalDigits digits n).length = digits := by
  induction digits generalizing n with
  | zero => rfl
  | succ digits ih => simp [octalDigits, ih]

theorem octalDigits_injective {digits n m : Nat} (hn : n < 8 ^ digits) (hm : m < 8 ^ digits)
    (h : octalDigits digits n = octalDigits digits m) : n = m := by
  induction digits generalizing n m with
  | zero => omega
  | succ digits ih =>
    rw [pow_succ] at hn hm
    obtain ⟨hinit, hlast⟩ := List.append_inj h (by rw [octalDigits_length, octalDigits_length])
    have hdiv : n / 8 = m / 8 := ih (by omega) (by omega) hinit
    have hmod : 48 + n % 8 = 48 + m % 8 := by
      have := congrArg UInt8.toNat (List.singleton_inj.mp hlast)
      rw [UInt8.toNat_ofNat', UInt8.toNat_ofNat'] at this
      omega
    omega

theorem octal_length {width : Nat} (h : 0 < width) (n : Nat) : (octal width n).length = width := by
  simp only [octal, List.length_append, octalDigits_length, List.length_singleton]
  omega

theorem octal_injective {width n m : Nat} (hn : n < 8 ^ (width - 1)) (hm : m < 8 ^ (width - 1))
    (h : octal width n = octal width m) : n = m :=
  octalDigits_injective hn hm (List.append_cancel_right h)

theorem bigEndian_length (digits n : Nat) : (bigEndian digits n).length = digits := by
  induction digits generalizing n with
  | zero => rfl
  | succ digits ih => simp [bigEndian, ih]

theorem bigEndian_injective {digits n m : Nat} (hn : n < 256 ^ digits) (hm : m < 256 ^ digits)
    (h : bigEndian digits n = bigEndian digits m) : n = m := by
  induction digits generalizing n m with
  | zero => omega
  | succ digits ih =>
    rw [pow_succ] at hn hm
    obtain ⟨hinit, hlast⟩ := List.append_inj h (by rw [bigEndian_length, bigEndian_length])
    have hdiv : n / 256 = m / 256 := ih (by omega) (by omega) hinit
    have hmod : n % 256 = m % 256 := by
      have := congrArg UInt8.toNat (List.singleton_inj.mp hlast)
      rw [UInt8.toNat_ofNat', UInt8.toNat_ofNat'] at this
      omega
    omega

/-- The most that a file can hold, and one more. -/
def lengthLimit : Nat := 2 ^ 64

theorem sizeField_length (n : Nat) : (sizeField n).length = 12 := by
  rw [sizeField]
  split_ifs
  · exact octal_length (by decide) n
  · rw [List.length_append, bigEndian_length]
    rfl

/-- The mark of a large size is no digit. -/
theorem octal_ne_large {width n : Nat} {rest : Bytes} : octal width n ≠ 0x80 :: rest := by
  intro h
  have hdigit : ∀ digits n : Nat, ∀ b ∈ octalDigits digits n, b ≠ 0x80 := by
    intro digits
    induction digits with
    | zero => simp [octalDigits]
    | succ digits ih =>
      intro n b hb
      rcases List.mem_append.mp hb with hb | hb
      · exact ih _ b hb
      · rw [List.mem_singleton.mp hb]
        intro heq
        have := congrArg UInt8.toNat heq
        rw [UInt8.toNat_ofNat'] at this
        have h80 : (0x80 : UInt8).toNat = 128 := rfl
        omega
  have hmem : (0x80 : UInt8) ∈ octal width n := h ▸ List.mem_cons_self
  rcases List.mem_append.mp hmem with hmem | hmem
  · exact hdigit _ _ _ hmem rfl
  · exact absurd (List.mem_singleton.mp hmem) (by decide)

theorem sizeField_injective {n m : Nat} (hn : n < lengthLimit) (hm : m < lengthLimit)
    (h : sizeField n = sizeField m) : n = m := by
  rw [sizeField, sizeField] at h
  split_ifs at h with hsn hsm hsm
  · exact octal_injective hsn hsm h
  · exact absurd h octal_ne_large
  · exact absurd h.symm octal_ne_large
  · exact bigEndian_injective hn hm (List.append_cancel_left h)

theorem field_length (width : Nat) (bytes : Bytes) : (field width bytes).length = width := by
  simp only [field, List.length_append, List.length_take, List.length_replicate]
  omega

/-- A text without NUL ends where its field is filled up. -/
theorem takeWhile_field {width : Nat} {bytes : Bytes} (hlen : bytes.length ≤ width)
    (hnul : (0 : UInt8) ∉ bytes) : (field width bytes).takeWhile (· ≠ 0) = bytes := by
  have hall : ∀ b ∈ bytes, decide (b ≠ 0) = true := fun b hb => by
    rw [decide_eq_true_eq]
    exact fun h0 => hnul (h0 ▸ hb)
  rw [field, List.take_of_length_le hlen, List.takeWhile_append_of_pos hall]
  cases width - bytes.length with
  | zero => simp
  | succ k => simp [List.replicate_succ]

theorem field_injective {width : Nat} {a b : Bytes} (ha : a.length ≤ width) (hb : b.length ≤ width)
    (ha0 : (0 : UInt8) ∉ a) (hb0 : (0 : UInt8) ∉ b) (h : field width a = field width b) : a = b := by
  rw [← takeWhile_field ha ha0, h, takeWhile_field hb hb0]

theorem Kind.byte_injective {k l : Kind} (h : k.byte = l.byte) : k = l := by
  cases k <;> cases l <;> first | rfl | exact absurd h (by decide)

theorem Header.bytes_append_inj {h k : Header} {r s : Bytes} (e : h.bytes ++ r = k.bytes ++ s) :
    field nameSize h.name = field nameSize k.name ∧ octal 8 h.mode = octal 8 k.mode ∧
      sizeField h.size = sizeField k.size ∧ h.kind = k.kind ∧
      field nameSize h.target = field nameSize k.target ∧ r = s := by
  have h8 (n m : Nat) : (octal 8 n).length = (octal 8 m).length := by
    rw [octal_length (by decide), octal_length (by decide)]
  have h12 (n m : Nat) : (octal 12 n).length = (octal 12 m).length := by
    rw [octal_length (by decide), octal_length (by decide)]
  have hf (a b : Bytes) : (field nameSize a).length = (field nameSize b).length := by
    rw [field_length, field_length]
  simp only [Header.bytes, front, back, List.append_assoc, List.cons_append] at e
  obtain ⟨hname, e⟩ := List.append_inj e (hf _ _)
  obtain ⟨hmode, e⟩ := List.append_inj e (h8 _ _)
  obtain ⟨-, e⟩ := List.append_inj e (h8 _ _)
  obtain ⟨-, e⟩ := List.append_inj e (h8 _ _)
  obtain ⟨hsize, e⟩ := List.append_inj e (by rw [sizeField_length, sizeField_length])
  obtain ⟨-, e⟩ := List.append_inj e (h12 _ _)
  obtain ⟨-, e⟩ := List.append_inj e (h8 _ _)
  obtain ⟨hkind, e⟩ := List.cons.inj e
  obtain ⟨htarget, e⟩ := List.append_inj e (hf _ _)
  have hrest := List.append_cancel_left (List.append_cancel_left e)
  exact ⟨hname, hmode, hsize, Kind.byte_injective hkind, htarget, hrest⟩

theorem padded_nil : padded [] = [] := rfl

theorem padded_append_inj {a b r s : Bytes} (hlen : a.length = b.length)
    (h : padded a ++ r = padded b ++ s) : a = b ∧ r = s := by
  simp only [padded, List.append_assoc, hlen] at h
  obtain ⟨hab, h⟩ := List.append_inj h hlen
  exact ⟨hab, List.append_cancel_left h⟩

/-- A header and the data that follows it. -/
structure Chunk where
  name : Bytes
  mode : Nat
  kind : Kind
  target : Bytes
  data : Bytes

namespace Chunk

def bytes (c : Chunk) : Bytes :=
  (Header.mk c.name c.mode c.data.length c.kind c.target).bytes ++ padded c.data

/-- The numbers of a chunk fit into their fields. -/
def Fits (c : Chunk) : Prop := c.mode < 8 ^ 7 ∧ c.data.length < lengthLimit

theorem bytes_append_inj {c d : Chunk} {r s : Bytes} (hc : c.Fits) (hd : d.Fits)
    (h : c.bytes ++ r = d.bytes ++ s) :
    field nameSize c.name = field nameSize d.name ∧ c.mode = d.mode ∧ c.kind = d.kind ∧
      field nameSize c.target = field nameSize d.target ∧ c.data = d.data ∧ r = s := by
  rw [bytes, bytes, List.append_assoc, List.append_assoc] at h
  obtain ⟨hname, hmode, hsize, hkind, htarget, h⟩ := Header.bytes_append_inj h
  have hlen : c.data.length = d.data.length := sizeField_injective hc.2 hd.2 hsize
  obtain ⟨hdata, hrest⟩ := padded_append_inj hlen h
  exact ⟨hname, octal_injective hc.1 hd.1 hmode, hkind, htarget, hdata, hrest⟩

/-- No chunk is the start of the empty blocks that end a stream. -/
theorem bytes_append_ne_ending (c : Chunk) (r : Bytes) : c.bytes ++ r ≠ ending := by
  intro h
  have hmem : c.kind.byte ∈ ending := by
    rw [← h, bytes]
    refine List.mem_append_left _ (List.mem_append_left _ (List.mem_append_right _ ?_))
    exact List.mem_cons_self
  have hzero : c.kind.byte = 0 := List.eq_of_mem_replicate hmem
  cases hk : c.kind <;> rw [hk] at hzero <;> exact absurd hzero (by decide)

end Chunk

/-- The text begins with a chunk of a kind. -/
def StartsWith (kind : Kind) (text : Bytes) : Prop :=
  ∃ (c : Chunk) (rest : Bytes), c.Fits ∧ c.kind = kind ∧ text = c.bytes ++ rest

theorem StartsWith.ne_ending {kind : Kind} {text : Bytes} (h : StartsWith kind text) :
    text ≠ ending := by
  obtain ⟨c, rest, -, -, rfl⟩ := h
  exact c.bytes_append_ne_ending rest

theorem StartsWith.kind_eq {k l : Kind} {text : Bytes} (hk : StartsWith k text)
    (hl : StartsWith l text) : k = l := by
  obtain ⟨c, r, hc, rfl, rfl⟩ := hk
  obtain ⟨d, s, hd, rfl, h⟩ := hl
  exact (Chunk.bytes_append_inj hc hd h).2.2.1

/-- The chunk that carries a text too long for its field. -/
def extensionChunk (kind : Kind) (text : Bytes) : Chunk :=
  ⟨Utf8.ofString "././@LongLink", 0o644, kind, [], text ++ [0]⟩

theorem extension_eq (kind : Kind) (text : Bytes) :
    extension kind text = (extensionChunk kind text).bytes := by
  simp [extension, extensionChunk, Chunk.bytes]

theorem extensionChunk_fits (kind : Kind) {text : Bytes} (h : text.length + 1 < lengthLimit) :
    (extensionChunk kind text).Fits :=
  ⟨show 0o644 < 8 ^ 7 by decide, by simpa [extensionChunk] using h⟩

theorem extension_append_inj {kind : Kind} {a b r s : Bytes} (ha : a.length + 1 < lengthLimit)
    (hb : b.length + 1 < lengthLimit) (h : extension kind a ++ r = extension kind b ++ s) :
    a = b ∧ r = s := by
  rw [extension_eq, extension_eq] at h
  obtain ⟨-, -, -, -, hdata, hrest⟩ :=
    Chunk.bytes_append_inj (extensionChunk_fits kind ha) (extensionChunk_fits kind hb) h
  exact ⟨List.append_cancel_right hdata, hrest⟩

theorem startsWith_extension (kind : Kind) {text : Bytes} (h : text.length + 1 < lengthLimit)
    (rest : Bytes) : StartsWith kind (extension kind text ++ rest) :=
  ⟨extensionChunk kind text, rest, extensionChunk_fits kind h, rfl, by rw [extension_eq]⟩

/-- An extension that is written for long texts only can be told from its absence, as long as what
comes next is of another kind. -/
theorem optional_extension_append_inj {kind : Kind} {p q : Prop} [Decidable p] [Decidable q]
    {a b r s : Bytes} (ha : a.length + 1 < lengthLimit) (hb : b.length + 1 < lengthLimit)
    (hr : ¬ StartsWith kind r) (hs : ¬ StartsWith kind s)
    (h : (if p then [] else extension kind a) ++ r = (if q then [] else extension kind b) ++ s) :
    (p ↔ q) ∧ (¬ p → a = b) ∧ r = s := by
  by_cases hp : p <;> by_cases hq : q <;> simp only [hp, hq, if_true, if_false, List.nil_append] at h
  · exact ⟨by simp [hp, hq], fun hn => absurd hp hn, h⟩
  · exact absurd (h ▸ startsWith_extension kind hb s) hr
  · exact absurd (h ▸ startsWith_extension kind ha r) hs
  · obtain ⟨hab, hrest⟩ := extension_append_inj ha hb h
    exact ⟨by simp [hp, hq], fun _ => hab, hrest⟩

theorem nul_notMem_tidyTarget {target : Bytes} (h : (0 : UInt8) ∉ target) :
    (0 : UInt8) ∉ tidyTarget target := by
  have hcomponent : ∀ c ∈ Path.components target, (0 : UInt8) ∉ c.bytes := by
    intro c hc
    rcases List.mem_append.mp hc with hc | hc
    · simp only [Path.leading] at hc
      split at hc
      · simp only [List.mem_singleton] at hc
        subst hc
        decide
      · split at hc
        · simp only [List.mem_singleton] at hc
          subst hc
          decide
        · simp at hc
    · obtain ⟨part, hpart, hc⟩ := List.mem_filterMap.mp hc
      simp only [Path.Component.ofPart?] at hc
      split_ifs at hc with h1 h2
      · obtain rfl := Option.some.inj hc
        decide
      · obtain rfl := Option.some.inj hc
        exact fun h0 => h (mem_of_mem_splitAtSep hpart h0)
  have hbetween : ∀ cs : List Path.Component, (∀ c ∈ cs, (0 : UInt8) ∉ c.bytes) →
      ∀ p ∈ pieces.between cs, (0 : UInt8) ∉ p := by
    intro cs
    fun_induction pieces.between cs with
    | case1 => simp
    | case2 c => simp
    | case3 c cs hne ih =>
      intro hcs p hp
      have ih := ih fun x hx => hcs x (List.mem_cons_of_mem _ hx)
      rcases List.mem_cons.mp hp with rfl | hp
      · exact hcs c List.mem_cons_self
      · split_ifs at hp
        · exact ih p hp
        · rcases List.mem_cons.mp hp with rfl | hp
          · decide
          · exact ih p hp
  intro h0
  obtain ⟨p, hp, h0⟩ := List.mem_flatten.mp h0
  rcases List.mem_append.mp hp with hp | hp
  · exact hbetween _ hcomponent p hp h0
  · split_ifs at hp
    · simp only [List.mem_singleton] at hp
      subst hp
      revert h0
      decide
    · simp at hp

theorem fitting_of_length_le {room : Nat} {ps : List Bytes} (h : ps.flatten.length ≤ room) :
    fitting room ps = ps.flatten := by
  induction ps generalizing room with
  | nil => rfl
  | cons p ps ih =>
    rw [List.flatten_cons, List.length_append] at h
    rw [fitting, if_pos (by omega), ih (by omega), List.flatten_cons]

theorem targetField_of_length_le {target : Bytes} (h : (tidyTarget target).length ≤ nameSize) :
    targetField target = tidyTarget target :=
  fitting_of_length_le h

/-- What a stream tells of an item besides its name. A target that fits its field is told part by
part, another one byte for byte. -/
inductive Mark where
  | directory
  | file (executable : Bool) (data : Bytes)
  | tidyLink (target : Bytes)
  | rawLink (target : Bytes)
  deriving DecidableEq, Repr

def linkMark (target : Bytes) : Mark :=
  if (tidyTarget target).length ≤ nameSize then .tidyLink (tidyTarget target) else .rawLink target

namespace Item

def mark : Item → Mark
  | directory _ => .directory
  | file _ executable data => .file executable data
  | link _ target => linkMark target

/-- The items that a stream can hold. -/
structure IsSound (i : Item) : Prop where
  name : (0 : UInt8) ∉ i.name ∧ i.name.length + 1 < lengthLimit
  data : ∀ name executable data, i = file name executable data → data.length < lengthLimit
  target : ∀ name target, i = link name target →
    (0 : UInt8) ∉ target ∧ target.length + 1 < lengthLimit

/-- The header of an item, and its data. -/
def chunk : Item → Chunk
  | directory name => ⟨nameField name, 0o755, .directory, [], []⟩
  | file name executable data =>
    ⟨nameField name, if executable then 0o755 else 0o644, .file, [], data⟩
  | link name target => ⟨nameField name, 0o777, .link, targetField target, []⟩

/-- An item without the chunk for a long name. -/
def body : Item → Bytes
  | link name target => longTarget target ++ (link name target).chunk.bytes
  | i => i.chunk.bytes

theorem bytes_eq (i : Item) : i.bytes = longName i.name ++ i.body := by
  cases i with
  | directory name => simp [bytes, body, chunk, Chunk.bytes, padded_nil, Item.name]
  | file name executable data => simp [bytes, body, chunk, Chunk.bytes, Item.name]
  | link name target => simp [bytes, body, chunk, Chunk.bytes, padded_nil, Item.name]

theorem IsSound.chunk_fits {i : Item} (h : i.IsSound) : i.chunk.Fits := by
  cases i with
  | directory name => exact ⟨show 0o755 < 8 ^ 7 by decide, show 0 < 2 ^ 64 by decide⟩
  | file name executable data =>
    refine ⟨?_, h.data _ _ _ rfl⟩
    cases executable
    · exact show 0o644 < 8 ^ 7 by decide
    · exact show 0o755 < 8 ^ 7 by decide
  | link name target => exact ⟨show 0o777 < 8 ^ 7 by decide, show 0 < 2 ^ 64 by decide⟩

theorem chunk_kind_ne (i : Item) : i.chunk.kind ≠ .longName ∧ i.chunk.kind ≠ .longTarget := by
  cases i <;> simp [chunk]

theorem IsSound.startsWith_chunk {i : Item} (h : i.IsSound) (rest : Bytes) :
    StartsWith i.chunk.kind (i.chunk.bytes ++ rest) :=
  ⟨i.chunk, rest, h.chunk_fits, rfl, rfl⟩

/-- An item without its long name starts with its own chunk, or with one for its target. -/
theorem IsSound.startsWith_body {i : Item} (h : i.IsSound) (rest : Bytes) :
    ∃ kind, kind ≠ .longName ∧ StartsWith kind (i.body ++ rest) := by
  cases i with
  | directory name => exact ⟨_, (chunk_kind_ne _).1, h.startsWith_chunk rest⟩
  | file name executable data => exact ⟨_, (chunk_kind_ne _).1, h.startsWith_chunk rest⟩
  | link name target =>
    simp only [body, longTarget]
    split_ifs
    · exact ⟨_, (chunk_kind_ne _).1, h.startsWith_chunk rest⟩
    · refine ⟨.longTarget, by decide, ?_⟩
      rw [List.append_assoc]
      exact startsWith_extension .longTarget (h.target _ _ rfl).2 _

theorem IsSound.not_startsWith_longName {i : Item} (h : i.IsSound) (rest : Bytes) :
    ¬ StartsWith .longName (i.body ++ rest) := by
  obtain ⟨kind, hne, hk⟩ := h.startsWith_body rest
  exact fun hl => hne (hk.kind_eq hl)

theorem IsSound.bytes_append_ne_ending {i : Item} (h : i.IsSound) (rest : Bytes) :
    i.bytes ++ rest ≠ ending := by
  rw [bytes_eq, longName, List.append_assoc]
  split_ifs
  · obtain ⟨kind, -, hk⟩ := h.startsWith_body rest
    exact hk.ne_ending
  · exact (startsWith_extension .longName h.name.2 _).ne_ending

theorem IsSound.not_startsWith_longTarget {i : Item} (h : i.IsSound) (rest : Bytes) :
    ¬ StartsWith .longTarget (i.chunk.bytes ++ rest) :=
  fun hl => (chunk_kind_ne i).2 ((h.startsWith_chunk rest).kind_eq hl)

def isLink : Item → Bool
  | link .. => true
  | _ => false

theorem body_of_not_isLink {i : Item} (h : i.isLink = false) : i.body = i.chunk.bytes := by
  cases i with
  | link n t => simp [isLink] at h
  | _ => rfl

theorem IsSound.body_append_ne {i j : Item} {r s : Bytes} (hi : i.IsSound) (hj : j.IsSound)
    (hli : i.isLink = true) (hlj : j.isLink = false) : i.body ++ r ≠ j.body ++ s := by
  intro h
  have hj' := hj.startsWith_chunk s
  rw [body_of_not_isLink hlj] at h
  rw [← h] at hj'
  cases i with
  | link n t =>
    simp only [body, longTarget] at hj'
    split_ifs at hj'
    · have hkind := hj'.kind_eq (hi.startsWith_chunk r)
      cases j with
      | link n' t' => simp [isLink] at hlj
      | _ => simp [chunk] at hkind
    · rw [List.append_assoc] at hj'
      exact (chunk_kind_ne j).2
        (hj'.kind_eq (startsWith_extension .longTarget (hi.target _ _ rfl).2 _))
  | _ => simp [isLink] at hli

/-- What an item's own chunk says of it, once the name and the target are known to be short or
known in full. -/
theorem IsSound.told_of_chunk_eq {i j : Item} {r s : Bytes} (hi : i.IsSound) (hj : j.IsSound)
    (hlong : i.name.length ≤ nameSize ↔ j.name.length ≤ nameSize)
    (hname : ¬ i.name.length ≤ nameSize → i.name = j.name)
    (htarget : ∀ n t n' t', i = link n t → j = link n' t' →
      ((tidyTarget t).length ≤ nameSize ↔ (tidyTarget t').length ≤ nameSize) ∧
        (¬ (tidyTarget t).length ≤ nameSize → t = t'))
    (h : i.chunk.bytes ++ r = j.chunk.bytes ++ s) :
    (i.name, i.mark) = (j.name, j.mark) ∧ r = s := by
  obtain ⟨hn, hmode, hkind, ht, hdata, hrest⟩ :=
    Chunk.bytes_append_inj hi.chunk_fits hj.chunk_fits h
  have hchunk (i : Item) : i.chunk.name = nameField i.name := by cases i <;> rfl
  have hnames : i.name = j.name := by
    by_cases hshort : i.name.length ≤ nameSize
    · rw [hchunk, hchunk, nameField, nameField, if_pos hshort, if_pos (hlong.mp hshort)] at hn
      exact field_injective hshort (hlong.mp hshort) hi.name.1 hj.name.1 hn
    · exact hname hshort
  refine ⟨Prod.ext hnames ?_, hrest⟩
  cases i with
  | directory n =>
    cases j with
    | directory n' => rfl
    | _ => simp [chunk] at hkind
  | file n executable data =>
    cases j with
    | file n' executable' data' =>
      have he : executable = executable' := by
        cases executable <;> cases executable' <;> simp [chunk] at hmode ⊢
      have hd : data = data' := hdata
      simp [mark, he, hd]
    | _ => simp [chunk] at hkind
  | link n target =>
    cases j with
    | link n' target' =>
      obtain ⟨hfit, heq⟩ := htarget n target n' target' rfl rfl
      simp only [mark, linkMark]
      by_cases hshort : (tidyTarget target).length ≤ nameSize
      · have hshort' := hfit.mp hshort
        have hfield : field nameSize (tidyTarget target) = field nameSize (tidyTarget target') := by
          simpa only [chunk, targetField_of_length_le hshort, targetField_of_length_le hshort']
            using ht
        have htidy := field_injective hshort hshort'
          (nul_notMem_tidyTarget (hi.target _ _ rfl).1)
          (nul_notMem_tidyTarget (hj.target _ _ rfl).1) hfield
        rw [if_pos hshort, if_pos hshort', htidy]
      · rw [if_neg hshort, if_neg (fun h' => hshort (hfit.mpr h')), heq hshort]
    | _ => simp [chunk] at hkind

/-- An item at the start of a text can be read back, and so can the text after it. -/
theorem IsSound.bytes_append_inj {i j : Item} {r s : Bytes} (hi : i.IsSound) (hj : j.IsSound)
    (h : i.bytes ++ r = j.bytes ++ s) : (i.name, i.mark) = (j.name, j.mark) ∧ r = s := by
  rw [bytes_eq, bytes_eq, List.append_assoc, List.append_assoc] at h
  obtain ⟨hlong, hname, h⟩ := optional_extension_append_inj hi.name.2 hj.name.2
    (hi.not_startsWith_longName r) (hj.not_startsWith_longName s) h
  -- Only a link has a second extension, and no other item starts as a link does.
  have hkinds : i.isLink = j.isLink := by
    cases hli : i.isLink <;> cases hlj : j.isLink
    · rfl
    · exact absurd h.symm (hj.body_append_ne hi hlj hli)
    · exact absurd h (hi.body_append_ne hj hli hlj)
    · rfl
  cases i with
  | link n t =>
    cases j with
    | link n' t' =>
      simp only [body, longTarget, List.append_assoc] at h
      obtain ⟨hfit, heq, h⟩ := optional_extension_append_inj (hi.target _ _ rfl).2
        (hj.target _ _ rfl).2 (hi.not_startsWith_longTarget r) (hj.not_startsWith_longTarget s) h
      refine hi.told_of_chunk_eq hj hlong hname (fun a b a' b' hab hab' => ?_) h
      obtain ⟨-, rfl⟩ := Item.link.inj hab
      obtain ⟨-, rfl⟩ := Item.link.inj hab'
      exact ⟨hfit, heq⟩
    | _ => simp [isLink] at hkinds
  | _ =>
    rw [body_of_not_isLink rfl, body_of_not_isLink (by rw [← hkinds]; rfl)] at h
    exact hi.told_of_chunk_eq hj hlong hname (fun _ _ _ _ hab => by cases hab) h

/-- The bytes of an item hold no more than its name and its mark. -/
theorem bytes_eq_of_told_eq {i j : Item} (h : (i.name, i.mark) = (j.name, j.mark)) :
    i.bytes = j.bytes := by
  obtain ⟨hname, hmark⟩ := Prod.mk.inj h
  cases i with
  | directory n =>
    cases j with
    | directory n' => rw [show n = n' from hname]
    | file n' e d => simp [mark] at hmark
    | link n' t =>
      simp only [mark, linkMark] at hmark
      split_ifs at hmark
  | file n e d =>
    cases j with
    | directory n' => simp [mark] at hmark
    | file n' e' d' =>
      obtain ⟨rfl, rfl⟩ := Mark.file.inj hmark
      rw [show n = n' from hname]
    | link n' t =>
      simp only [mark, linkMark] at hmark
      split_ifs at hmark
  | link n t =>
    cases j with
    | directory n' =>
      simp only [mark, linkMark] at hmark
      split_ifs at hmark
    | file n' e d =>
      simp only [mark, linkMark] at hmark
      split_ifs at hmark
    | link n' t' =>
      obtain rfl : n = n' := hname
      simp only [mark, linkMark] at hmark
      split_ifs at hmark with h1 h2 h2
      · have ht := Mark.tidyLink.inj hmark
        simp only [bytes, longTarget, if_pos h2, targetField_of_length_le h1,
          targetField_of_length_le h2, ht]
      · rw [Mark.rawLink.inj hmark]

end Item

/-- The names of the items of a stream, and what it tells of them. -/
def told (items : List Item) : List (Bytes × Mark) := items.map fun i => (i.name, i.mark)

/-- A stream holds what is told of its items, and nothing else. -/
theorem stream_eq_iff {xs ys : List Item} (hx : ∀ i ∈ xs, i.IsSound) (hy : ∀ i ∈ ys, i.IsSound) :
    stream xs = stream ys ↔ told xs = told ys := by
  constructor
  · intro h
    induction xs generalizing ys with
    | nil =>
      cases ys with
      | nil => rfl
      | cons j ys =>
        rw [stream, stream, List.flatMap_cons, List.append_assoc] at h
        exact absurd h.symm ((hy j List.mem_cons_self).bytes_append_ne_ending _)
    | cons i xs ih =>
      cases ys with
      | nil =>
        rw [stream, stream, List.flatMap_cons, List.append_assoc] at h
        exact absurd h ((hx i List.mem_cons_self).bytes_append_ne_ending _)
      | cons j ys =>
        simp only [stream, List.flatMap_cons, List.append_assoc] at h
        obtain ⟨hij, h⟩ := (hx i List.mem_cons_self).bytes_append_inj (hy j List.mem_cons_self) h
        have hrest := ih (fun k hk => hx k (List.mem_cons_of_mem _ hk))
          (fun k hk => hy k (List.mem_cons_of_mem _ hk)) h
        rw [told, told, List.map_cons, List.map_cons, hij]
        exact congrArg _ hrest
  · intro h
    induction xs generalizing ys with
    | nil =>
      cases ys with
      | nil => rfl
      | cons j ys => simp [told] at h
    | cons i xs ih =>
      cases ys with
      | nil => simp [told] at h
      | cons j ys =>
        obtain ⟨hij, h⟩ := List.cons.inj h
        have hrest := ih (fun k hk => hx k (List.mem_cons_of_mem _ hk))
          (fun k hk => hy k (List.mem_cons_of_mem _ hk)) h
        simp only [stream, List.flatMap_cons, List.append_assoc] at hrest ⊢
        rw [Item.bytes_eq_of_told_eq hij, hrest]

end Depot.Tar
