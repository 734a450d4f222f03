import Depot.Proofs.Archive.Copying
import Depot.Proofs.Checkout.System

/-!
What one step leaves alone: the scratch directories of other checkouts, and the archives that are
there. An archive only ever takes the place of an empty one.
-/

namespace Depot

open Files Fingerprint

/-- An archive as it must be: a directory named for its hash. -/
def IsArchive (n : Name) (x : Node) : Prop :=
  x.isDir = true ∧ ∃ h : ArchiveHash, n = h.name ∧ IsHash x h

/-- What a step that owns some scratch directories keeps. -/
structure World.Keeps (site : Site) (seat : Seat) (owned : List Bytes) (w w' : World) : Prop where
  sound : w'.IsSound site seat
  cwd : w'.disk.cwd = w.disk.cwd
  scratches : w.scratches ≤ w'.scratches
  areas : ∀ a, w.disk.root.IsDirAt (seat.area a) → w'.disk.root.IsDirAt (seat.area a)
  others : ∀ σ : Scratch, σ.path site w.disk.cwd ∉ owned →
    w'.disk.root.get? (seat.scratch σ) = w.disk.root.get? (seat.scratch σ)
  archives : ∀ n x, w.disk.root.get? (seat.archive n) = some x →
    ∃ x', w'.disk.root.get? (seat.archive n) = some x' ∧ (x' = x ∨ x.children = [])
  published : ∀ n x, w'.disk.root.get? (seat.archive n) = some x →
    w.disk.root.get? (seat.archive n) = some x ∨ IsArchive n x

namespace Files.Disk.ChangedIn

variable {site : Site} {seat : Seat} {scratches : List Bytes} {d d' : Disk}

theorem sameAround (h : d.ChangedIn site seat scratches d') : seat.SameAround d.root d'.root :=
  fun other hother => (h.look other fun _ _ => hother _ _).symm

theorem get?_scratch (h : d.ChangedIn site seat scratches d') (hs : d.root.IsSound) {σ : Scratch}
    (hσ : σ.path site d.cwd ∉ scratches) :
    d'.root.get? (seat.scratch σ) = d.root.get? (seat.scratch σ) :=
  Node.get?_eq_of_look_eq h.sound hs fun _ => h.look _ fun _ hτ hp =>
    hσ (Seat.eq_of_scratch_append hp ▸ hτ)

theorem get?_archive (h : d.ChangedIn site seat scratches d') (hs : d.root.IsSound) (n : Name) :
    d'.root.get? (seat.archive n) = d.root.get? (seat.archive n) :=
  Node.get?_eq_of_look_eq h.sound hs fun _ => h.look _ fun _ _ =>
    Seat.scratch_not_above_archive

theorem of_alter (hs : d.root.IsSound) {σ : Scratch} (hσ : σ.path site d.cwd ∈ scratches)
    {place : Place} (hp : seat.scratch σ <+: place) (f : Option Node → Option Node)
    (hsound : (d.alter place f).root.IsSound) : d.ChangedIn site seat scratches (d.alter place f) where
  sound := hsound
  cwd := rfl
  look other hother := by
    refine Disk.look_alter_outside hs ?_ (fun h => hother σ hσ (hp.trans h)) f
    rintro rfl
    simp [Seat.scratch, Seat.entry] at hp

theorem of_sameOff {σ : Scratch} (hσ : σ.path site d.cwd ∈ scratches) (hsound : d'.root.IsSound)
    (hcwd : d'.cwd = d.cwd) (hsame : d.root.SameOff (seat.scratch σ) d'.root) :
    d.ChangedIn site seat scratches d' :=
  ⟨hsound, hcwd, fun other hother => (hsame other (hother σ hσ)).symm⟩

theorem trans {d'' : Disk} (h : d.ChangedIn site seat scratches d')
    (h' : d'.ChangedIn site seat scratches d'') : d.ChangedIn site seat scratches d'' :=
  ⟨h'.sound, h'.cwd.trans h.cwd, fun other hother =>
    (h'.look other (h.cwd ▸ hother)).trans (h.look other hother)⟩

end Files.Disk.ChangedIn

namespace World

variable {site : Site} {seat : Seat} {owned : List Bytes} {w w' : World}

namespace IsSound

theorem withDisk (h : w.IsSound site seat) {d' : Disk} (hs : d'.root.IsSound)
    (hseat : seat.Holds site d') : { w with disk := d' }.IsSound site seat :=
  ⟨hs, hseat, h.commits, h.undisturbed⟩

end IsSound

namespace Keeps

theorem refl (h : w.IsSound site seat) : w.Keeps site seat owned w :=
  ⟨h, rfl, Nat.le_refl _, fun _ h => h, fun _ _ => rfl, fun _ x hx => ⟨x, hx, .inl rfl⟩,
    fun _ _ hx => .inl hx⟩

theorem trans {w'' : World} (h : w.Keeps site seat owned w') (h' : w'.Keeps site seat owned w'') :
    w.Keeps site seat owned w'' where
  sound := h'.sound
  cwd := h'.cwd.trans h.cwd
  scratches := Nat.le_trans h.scratches h'.scratches
  areas a ha := h'.areas a (h.areas a ha)
  others σ hσ := (h'.others σ (h.cwd ▸ hσ)).trans (h.others σ hσ)
  archives n x hx := by
    obtain ⟨x', hx', heq⟩ := h.archives n x hx
    obtain ⟨x'', hx'', heq'⟩ := h'.archives n x' hx'
    refine ⟨x'', hx'', ?_⟩
    rcases heq with rfl | hempty
    · exact heq'
    · exact .inr hempty
  published n x hx := by
    rcases h'.published n x hx with hx' | harchive
    · exact h.published n x hx'
    · exact .inr harchive

/-- What happens in owned scratch directories is nobody else's business. -/
theorem of_changedIn (h : w.IsSound site seat) {d' : Disk}
    (hd : w.disk.ChangedIn site seat owned d') : w.Keeps site seat owned { w with disk := d' } where
  sound := h.withDisk hd.sound (h.seat.frame hd.cwd hd.sameAround)
  cwd := hd.cwd
  scratches := Nat.le_refl _
  areas a ha := (hd.sameAround.isDirAt_area a).mp ha
  others _ hσ := hd.get?_scratch h.tree hσ
  archives n x hx := ⟨x, (hd.get?_archive h.tree n).trans hx, .inl rfl⟩
  published n _ hx := .inl ((hd.get?_archive h.tree n).symm.trans hx)

theorem of_sameCache (owned : List Bytes) (h : w.SameCache site seat w') : w.Keeps site seat owned w' where
  sound := h.sound
  cwd := h.cwd
  scratches := Nat.le_of_eq h.scratches.symm
  areas a := by
    rintro ⟨mode, es, hx⟩
    exact ⟨mode, es, (h.below _).trans hx⟩
  others _ _ := by
    rw [Seat.scratch, Seat.entry, Seat.area, List.append_assoc]
    exact h.below _
  archives _ x hx := by
    rw [Seat.archive, Seat.entry, Seat.area, List.append_assoc] at hx ⊢
    exact ⟨x, (h.below _).trans hx, .inl rfl⟩
  published _ _ hx := by
    rw [Seat.archive, Seat.entry, Seat.area, List.append_assoc] at hx ⊢
    exact .inl ((h.below _).symm.trans hx)

theorem of_makeDirs (owned : List Bytes) (h : w.IsSound site seat) {a : Area} {d' : Disk}
    (hmake : w.disk.makeDirs (site.areaPath a) = .ok d') :
    w.Keeps site seat owned { w with disk := d' } ∧ d'.root.IsDirAt (seat.area a) := by
  obtain ⟨hg, hseat⟩ := h.seat.grown h.tree hmake
  have hentry : ∀ b n, d'.root.get? (seat.entry b n) = w.disk.root.get? (seat.entry b n) := by
    refine fun b n => Node.get?_eq_of_look_eq hg.sound h.tree fun rest => ?_
    refine (hg.grown _).resolve_right fun ⟨_, _, part, hpart, heq⟩ => ?_
    exact Seat.entry_not_above hpart (heq ▸ List.prefix_append _ _)
  exact ⟨⟨h.withDisk hg.sound hseat, hg.cwd, Nat.le_refl _, fun b hb => hg.grown.isDirAt hb,
    fun σ _ => hentry _ _, fun n x hx => ⟨x, (hentry _ _).trans hx, .inl rfl⟩,
    fun n x hx => .inl ((hentry _ _).symm.trans hx)⟩, Seat.home_append_names seat a ▸ hg.made⟩

end Keeps

/-- A scratch directory that was made, whether it is still there or not. -/
structure Made (site : Site) (seat : Seat) (w : World) (path : Bytes) (σ : Scratch) : Prop where
  path : path = σ.path site w.disk.cwd
  number : σ.number ≤ w.scratches
  length : ∀ m ∈ seat.names ++ [σ.purpose.area.name] ++ [σ.name], m.length ≤ 255
  areas : ∀ a, w.disk.root.IsDirAt (seat.area a)

/-- A scratch directory is there and is as it should be. -/
def Has (site : Site) (seat : Seat) (w : World) (path : Bytes) (p : Node → Prop) : Prop :=
  ∃ σ x, w.Made site seat path σ ∧ w.disk.root.get? (seat.scratch σ) = some x ∧ p x

/-- There is an archive of a hash. -/
def Holds (seat : Seat) (w : World) (h : ArchiveHash) : Prop :=
  ∃ x, w.disk.root.get? (seat.archive h.name) = some x

/-- An answer does not promise an archive that is not there. -/
def Delivers (seat : Seat) (w : World) (result : Except Failure Outcome) : Prop :=
  ∀ outcome h, result = .ok outcome → outcome.archive = some h → w.Holds seat h

theorem delivers_error (seat : Seat) (w : World) (f : Failure) : w.Delivers seat (.error f) := nofun

theorem delivers_none (seat : Seat) (w : World) (commit : CommitId) :
    w.Delivers seat (.ok ⟨commit, none⟩) := by
  rintro _ hash ⟨⟩ hh
  cases hh

theorem Made.keeps (h : w.Keeps site seat owned w') {path : Bytes} {σ : Scratch}
    (hm : w.Made site seat path σ) : w'.Made site seat path σ :=
  ⟨h.cwd ▸ hm.path, Nat.le_trans hm.number h.scratches, hm.length, fun a => h.areas a (hm.areas a)⟩

theorem Has.keeps (h : w.Keeps site seat owned w') {path : Bytes} {p : Node → Prop}
    (hpath : path ∉ owned) (hx : w.Has site seat path p) : w'.Has site seat path p := by
  obtain ⟨σ, x, hm, hget, hp⟩ := hx
  exact ⟨σ, x, hm.keeps h, (h.others σ (hm.path ▸ hpath)).trans hget, hp⟩

theorem Holds.keeps (h : w.Keeps site seat owned w') {hash : ArchiveHash}
    (hh : w.Holds seat hash) : w'.Holds seat hash := by
  obtain ⟨x, hx⟩ := hh
  obtain ⟨x', hx', -⟩ := h.archives _ x hx
  exact ⟨x', hx'⟩

theorem Delivers.keeps (h : w.Keeps site seat owned w') {result : Except Failure Outcome}
    (hr : w.Delivers seat result) : w'.Delivers seat result :=
  fun outcome hash ho hh => (hr outcome hash ho hh).keeps h

end World

namespace Phase

def checkoutName : Name := Utf8.ofString "checkout"

/-- What the scratch directories of a checkout hold when it takes its next step. -/
def IsReady (site : Site) (seat : Seat) (w : World) : Phase → Prop
  | openScratch _ => ∀ a, w.disk.root.IsDirAt (seat.area a)
  | clone _ scratch => w.Has site seat scratch fun x => ∃ mode, x = .dir mode []
  | readHead _ scratch => w.Has site seat scratch (·.IsDirAt [checkoutName])
  | strip build => w.Has site seat build.scratch (·.IsDirAt [checkoutName])
  | openSource _ route => w.Has site seat route.dest fun x => ∃ mode, x = .dir mode []
  | copy _ route tasks => ∃ σ, w.Made site seat route.dest σ ∧
    Archive.Underway (seat.scratch σ) route.dest w.disk tasks
  | hash _ workspace => w.Has site seat workspace (·.isDir = true)
  | share _ workspace h | publish _ workspace h =>
    w.Has site seat workspace fun x => x.isDir = true ∧ IsHash x h
  | _ => True

/-- What holds of each checkout between its steps. -/
structure IsSound (site : Site) (seat : Seat) (w : World) (p : Phase) : Prop where
  made : ∀ path ∈ p.scratches, ∃ σ, w.Made site seat path σ
  ready : p.IsReady site seat w
  result : ∀ result, p.result? = some result → w.Delivers seat result

variable {site : Site} {seat : Seat} {owned : List Bytes} {w w' : World} {p p' : Phase}

/-- A checkout is not disturbed by what others do in their own directories. -/
theorem IsSound.keeps (hp : p.IsSound site seat w) (h : w.Keeps site seat owned w')
    (hown : ∀ path ∈ p.scratches, path ∉ owned) : p.IsSound site seat w' where
  made path hpath := by
    obtain ⟨σ, hm⟩ := hp.made path hpath
    exact ⟨σ, hm.keeps h⟩
  ready := by
    have hready := hp.ready
    cases p with
    | openScratch => exact fun a => h.areas a (hready a)
    | copy build route tasks =>
      obtain ⟨σ, hm, hu⟩ := hready
      have hget := h.others σ (hm.path ▸ hown route.dest (by simp [scratches]))
      have hbelow : ∀ place, w'.disk.root.get? (seat.scratch σ ++ place) =
          w.disk.root.get? (seat.scratch σ ++ place) := by
        intro place
        rw [Node.get?_append, hget, ← Node.get?_append]
      obtain ⟨mode, es, hx⟩ := hu.leads.dir
      have hm' := hm.keeps h
      have hleads := h.sound.seat.leads_scratch hm'.length ⟨mode, es, hget.trans hx⟩
      exact ⟨σ, hm', hu.frame h.sound.tree (hm'.path ▸ hleads) hbelow⟩
    | clone => exact World.Has.keeps h (hown _ (by simp [scratches])) hready
    | readHead => exact World.Has.keeps h (hown _ (by simp [scratches])) hready
    | strip => exact World.Has.keeps h (hown _ (by simp [scratches])) hready
    | openSource => exact World.Has.keeps h (hown _ (by simp [scratches])) hready
    | hash => exact World.Has.keeps h (hown _ (by simp [scratches])) hready
    | share => exact World.Has.keeps h (hown _ (by simp [scratches])) hready
    | publish => exact World.Has.keeps h (hown _ (by simp [scratches])) hready
    | _ => trivial
  result r hr := (hp.result r hr).keeps h

end Phase

end Depot
