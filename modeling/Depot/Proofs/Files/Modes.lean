import Depot.Proofs.Files.Making
import Mathlib.Data.Nat.Bitwise
import Mathlib.Tactic.NormNum

/-!
Modes. Writing a file takes no bit of its mode that tells who may read, write or run it. A tree whose
files have other modes is walked as the tree itself is.
-/

namespace Depot.Files

namespace Disk

theorem and_two_pow_eq (m i : Nat) : m &&& 2 ^ i = m / 2 ^ i % 2 * 2 ^ i := by
  rw [Nat.and_two_pow, Nat.testBit_eq_decide_div_mod_eq]
  rcases Nat.mod_two_eq_zero_or_one (m / 2 ^ i) with h | h <;> simp [h]

theorem modeAfterWrite_eq (m : Nat) :
    modeAfterWrite m = m - m / 2048 % 2 * 2048 -
      if m / 8 % 2 = 0 then 0 else m / 1024 % 2 * 1024 := by
  have h₁₁ := and_two_pow_eq m 11
  have h₁₀ := and_two_pow_eq m 10
  have h₃ := and_two_pow_eq m 3
  norm_num only at h₁₁ h₁₀ h₃
  rw [modeAfterWrite, h₁₁, h₁₀, h₃]
  congr 1
  split_ifs <;> omega

/-- A file keeps all bits that tell who may read, write and run it. -/
theorem modeAfterWrite_mod (m : Nat) : modeAfterWrite m % 1024 = m % 1024 := by
  rw [modeAfterWrite_eq]
  split_ifs <;> omega

theorem modeAfterWrite_idem (m : Nat) : modeAfterWrite (modeAfterWrite m) = modeAfterWrite m := by
  rw [modeAfterWrite_eq (modeAfterWrite m), modeAfterWrite_eq m]
  split_ifs <;> omega

theorem modeAfterWrite_and {mask : Nat} (h : mask &&& 1023 = mask) (m : Nat) :
    modeAfterWrite m &&& mask = m &&& mask := by
  have hlow : ∀ m : Nat, m &&& mask = m % 1024 &&& mask := by
    intro m
    have hmod : m % 1024 = m &&& 1023 := (Nat.and_two_pow_sub_one_eq_mod m 10).symm
    rw [hmod, Nat.and_assoc, Nat.and_comm 1023, h]
  rw [hlow, modeAfterWrite_mod, ← hlow]

/-- A mode without the bits that let a file be run as its owner or its group. -/
def plainMode (mode : Nat) : Nat := mode &&& 0o1777

theorem plainMode_modeAfterWrite (mode : Nat) : plainMode (modeAfterWrite mode) = plainMode mode :=
  modeAfterWrite_and (by decide) mode

end Disk

namespace Node

mutual

/-- A tree with other modes of its files. Its directories all have one mode. -/
def moded (f : Nat → Nat) : Node → Node
  | file mode data => file (f mode) data
  | link target => link target
  | special kind => special kind
  | dir _ es => dir 0o755 (modedAll f es)

def modedAll (f : Nat → Nat) : Entries → Entries
  | [] => []
  | (n, node) :: rest => (n, node.moded f) :: modedAll f rest

end

end Node

section

variable (f : Nat → Nat)

namespace Node

theorem moded_dir (mode : Nat) (es : Entries) :
    (dir mode es).moded f = dir 0o755 (modedAll f es) := rfl

theorem modedAll_cons (n : Name) (node : Node) (rest : Entries) :
    modedAll f ((n, node) :: rest) = (n, node.moded f) :: modedAll f rest := rfl

theorem modedAll_eq (es : Entries) : modedAll f es = es.map fun e => (e.1, e.2.moded f) := by
  induction es with
  | nil => rfl
  | cons e es ih =>
    obtain ⟨n, node⟩ := e
    rw [modedAll_cons, ih, List.map_cons]

theorem kind_moded (node : Node) : (node.moded f).kind = node.kind := by
  cases node <;> rfl

theorem isDir_moded (node : Node) : (node.moded f).isDir = node.isDir := by
  cases node <;> rfl

theorem children_moded (node : Node) : (node.moded f).children = modedAll f node.children := by
  cases node <;> rfl

theorem find?_modedAll (n : Name) (es : Entries) :
    Entries.find? n (modedAll f es) = (Entries.find? n es).map (moded f) := by
  rw [modedAll_eq, Entries.find?_map_snd]

theorem get?_moded (node : Node) (place : Place) :
    (node.moded f).get? place = (node.get? place).map (moded f) := by
  induction place generalizing node with
  | nil => simp
  | cons n place ih =>
    cases node with
    | dir mode es =>
      rw [moded_dir, get?_dir_cons, get?_dir_cons, find?_modedAll]
      cases Entries.find? n es with
      | none => rfl
      | some child => exact ih child
    | _ => rfl

theorem beneathAll_modedAll (es : Entries) :
    beneathAll (modedAll f es) = (beneathAll es).map fun e => (e.1, e.2.moded f) := by
  have hdir : ((dir 0 es).moded f).beneath = (dir 0 es).beneath.map fun e => (e.1, e.2.moded f) := by
    refine induction (p := fun node => (node.moded f).beneath = node.beneath.map fun e =>
        (e.1, e.2.moded f))
      (q := fun es => beneathAll (modedAll f es) = (beneathAll es).map fun e => (e.1, e.2.moded f))
      (fun _ _ => rfl) (fun _ => rfl) (fun _ => rfl) (fun mode es hes => ?_) rfl
      (fun n x rest hx hrest => ?_) _
    · rw [moded_dir, beneath, beneath, hes]
    · simp [modedAll_cons, beneathAll, hx, hrest]
  exact hdir

theorem isDirAt_moded {root : Node} {place : Place} (h : root.IsDirAt place) :
    (root.moded f).IsDirAt place := by
  obtain ⟨mode, es, hx⟩ := h
  exact ⟨0o755, modedAll f es, by rw [get?_moded, hx, Option.map_some, moded_dir]⟩

end Node

namespace Entries

theorem insert_modedAll (n : Name) (node : Node) (es : Entries) :
    insert n (node.moded f) (Node.modedAll f es) = Node.modedAll f (insert n node es) := by
  induction es with
  | nil => rfl
  | cons e es ih =>
    obtain ⟨m, x⟩ := e
    rw [Node.modedAll_cons, insert, insert]
    split_ifs <;> simp [Node.modedAll_cons, ih]

theorem erase_modedAll (n : Name) (es : Entries) :
    erase n (Node.modedAll f es) = Node.modedAll f (erase n es) := by
  induction es with
  | nil => rfl
  | cons e es ih =>
    obtain ⟨m, x⟩ := e
    rw [Node.modedAll_cons, erase, erase]
    split_ifs <;> simp [Node.modedAll_cons, ih]

theorem set_modedAll (n : Name) (node? : Option Node) (es : Entries) :
    set n (node?.map (Node.moded f)) (Node.modedAll f es) = Node.modedAll f (set n node? es) := by
  cases node? with
  | none => exact erase_modedAll f n es
  | some node => exact insert_modedAll f n node es

end Entries

/-- What is put into a tree is put into the tree with other modes. -/
theorem Node.alter_moded (node : Node) (place : Place) (node? : Option Node) :
    alter (fun _ => some (node.moded f)) place (node?.map (moded f)) =
      (alter (fun _ => some node) place node?).map (moded f) := by
  induction place generalizing node? with
  | nil => rfl
  | cons n place ih =>
    cases node? with
    | none => rfl
    | some x =>
      cases x with
      | dir mode es =>
        rw [Option.map_some, moded_dir, alter, alter, Option.map_some, moded_dir, find?_modedAll, ih,
          Entries.set_modedAll]
      | _ => rfl

/-! ### Walks -/

/-- What a path leads to in a tree whose files have other modes. -/
def Found.moded (f : Nat → Nat) (found : Found) : Found :=
  { found with node := found.node.map (Node.moded f) }

theorem walk_moded {root : Node} (follow : Bool) (links : Nat) (place : Place) (hs : List Hop) :
    walk (root.moded f) follow links place hs =
      (walk root follow links place hs).map (Found.moded f) := by
  induction links using Nat.strongRecOn generalizing place hs with
  | ind links ihlinks =>
  induction hs generalizing place with
  | nil =>
    cases hx : root.get? place with
    | none => rw [walk_of_none hx, walk_of_none (by rw [Node.get?_moded, hx]; rfl)]; rfl
    | some x =>
      rw [walk_nil hx, walk_nil (x := x.moded f) (by rw [Node.get?_moded, hx]; rfl)]
      rfl
  | cons hop hs ih =>
    cases hx : root.get? place with
    | none => rw [walk_of_none hx, walk_of_none (by rw [Node.get?_moded, hx]; rfl)]; rfl
    | some x =>
    by_cases hdir : x.isDir = false
    · rw [walk_cons_of_not_dir hx hdir, walk_cons_of_not_dir (x := x.moded f)
        (by rw [Node.get?_moded, hx]; rfl) ((x.isDir_moded f).trans hdir)]
      rfl
    have hd : root.IsDirAt place := .of_isDir hx (by simpa using hdir)
    have hd' := Node.isDirAt_moded f hd
    cases hop with
    | stay =>
      rw [walk_stay hd, walk_stay hd']
      exact ih place
    | up =>
      rw [walk_up hd, walk_up hd']
      exact ih place.dropLast
    | name n =>
      rw [walk_name hd, walk_name hd', Node.get?_moded]
      by_cases hn : n.length > 255
      · rw [if_pos hn, if_pos hn]
        rfl
      rw [if_neg hn, if_neg hn]
      cases hc : root.get? (place ++ [n]) with
      | none =>
        rw [Option.map_none]
        dsimp only
        split_ifs <;> rfl
      | some child =>
        rw [Option.map_some]
        cases child with
        | link target =>
          rw [Node.moded]
          dsimp only
          split_ifs
          · rfl
          · cases links with
            | zero => rfl
            | succ links => exact ihlinks links (by omega) _ _
          · cases links with
            | zero => rfl
            | succ links => exact ihlinks links (by omega) _ _
        | _ =>
          simp only [Node.moded]
          exact ih (place ++ [n])

end

namespace Node

/-- A tree whose files are not run as somebody else. -/
abbrev plain (node : Node) : Node := node.moded Disk.plainMode

abbrev plainAll (es : Entries) : Entries := modedAll Disk.plainMode es

theorem plain_copied (mode : Nat) (data : Bytes) :
    (copied mode data).plain = file (Disk.plainMode mode) data := by
  rw [copied]
  split_ifs <;> simp [moded, Disk.plainMode_modeAfterWrite]

end Node

end Depot.Files
