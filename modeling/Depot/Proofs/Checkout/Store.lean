import Depot.Proofs.Checkout.Repetition

/-!
The store of archives over whole runs. Whatever order the steps of all checkouts come in, and
whichever of them fail, each archive is complete and has the hash it is named for, none goes away or
changes, and no checkout answers with an archive that is not there.
-/

namespace Depot

open Files Fingerprint

namespace System

variable {site : Site} {seat : Seat} {s s' s₀ : System}

/-- At any time of any run, every archive is a directory with a tree of the hash it is named for,
and is found under its path. From then on it is always there and holds the same, unless it is empty
and a tree that is not has the hash of the empty tree too. What a checkout has answered is there. -/
theorem archives_intact (h₀ : s₀.IsInitial site seat) (hbefore : Steps site seat s₀ s)
    (hafter : Steps site seat s s') :
    (∀ n x, s.world.disk.root.get? (seat.archive n) = some x →
      x.isDir = true ∧ ∃ h : ArchiveHash, n = h.name ∧ IsHash x h ∧
        (s.world.disk.stat (site.archivePath h) = .ok x ∨
          s.world.disk.stat (site.archivePath h) = .error .nameTooLong)) ∧
      (∀ n x, s.world.disk.root.get? (seat.archive n) = some x →
        ∃ x', s'.world.disk.root.get? (seat.archive n) = some x' ∧
          (x'.children = x.children ∨ x.children = [] ∧ HashesAsEmpty x')) ∧
      ∀ me b outcome h, s.checkout me = some (b, .done (.ok outcome)) → outcome.archive = some h →
        ∃ x, s.world.disk.root.get? (seat.archive h.name) = some x := by
  have hs := hbefore.isSound h₀.isSound
  have hs' := hafter.isSound hs
  refine ⟨fun n x hx => ?_, fun n x hx => ?_, fun me b outcome h hme hh => ?_⟩
  · obtain ⟨hdir, h, rfl, hhash⟩ := hs.archives n x hx
    refine ⟨hdir, h, rfl, hhash, ?_⟩
    have hlink : ∀ target, s.world.disk.root.get? (seat.archive h.name) ≠ some (.link target) := by
      intro target ht
      cases (hs.archives _ _ ht).1
    have hname := hs.world.seat.names_archive (.of_append (by simp) hx) hhash.isName
    rcases hname.stat_cases hlink with hlong | ⟨-, hstat⟩
    · exact .inr hlong
    · left
      rw [show s.world.disk.root.get? (seat.area .archives ++ [h.name]) = some x from hx] at hstat
      exact hstat
  · obtain ⟨x', hx', heq⟩ := hafter.archives hs hx
    refine ⟨x', hx', ?_⟩
    rcases heq with rfl | hempty
    · exact .inl rfl
    · obtain ⟨-, h, hn, hhash⟩ := hs.archives n x hx
      obtain ⟨-, h', hn', hhash'⟩ := hs'.archives n x' hx'
      obtain rfl := hhash.eq_of_name_eq hhash' (hn.symm.trans hn')
      rcases hhash.children_eq_or hhash' hempty with hsame | huncommon
      · exact .inl hsame
      · exact .inr ⟨hempty, huncommon⟩
  · exact (hs.checkouts me b _ hme).result _ rfl outcome h rfl hh

end System

/-! A checkout of one file, up to the archive and beyond. -/

theorem Phase.hash_step {site : Site} {build : Build} {workspace : Bytes} {w : World} {h : ArchiveHash}
    (me : Nat) (b : Builder) (hh : ofTree w.disk workspace = .ok h) :
    (hash build workspace).step site me w b = (w, b, share build workspace h) := by
  unfold step
  simp only [hh]

theorem Phase.publish_step {site : Site} {build : Build} {workspace : Bytes} {w : World}
    {h : ArchiveHash} {d : Disk} (me : Nat) (b : Builder)
    (hd : Workspace.publish w.disk workspace (site.archivePath h) = (d, .ok ())) :
    (publish build workspace h).step site me w b = ({ w with disk := d }, b,
      discard build.job [workspace, build.scratch] (.ok ⟨build.commit, some h⟩)) := by
  unfold step
  simp only [hd]

theorem Run.steps {site : Site} {seat : Seat} (run : Run site seat) {m n : Nat} (h : m ≤ n) :
    System.Steps site seat (run.state m) (run.state n) := by
  induction n, h using Nat.le_induction with
  | base => exact .refl
  | succ n _ ih => exact ih.tail (run.step n)

namespace Solo

/-- While there is a clone that holds the file, and what else is in the cache. -/
def filled (works archives : Entries) : World := stocked (world (cache
  [(cloneScratch.name, .dir 0o700 [(Phase.checkoutName, .dir 0o755 stock)])] works archives) 2)

def stockItems : List Tar.Item := [.file [0x66] false [0x74]]

def remembering (h : ArchiveHash) : Builder := { done with cache := { done.cache with entries := [(key, some h)] } }

/-- The file is checked out, alone. -/
def haul : Run site seat := .alone "x" "." isInitial_stocked isReady_idle entries_idle

abbrev Haul := Phase.Leg site 0 fun _ => True

section leg

variable {s : World × Builder × Phase} (leg : Haul (stocked (world [] 0), idle, .start "x" ".") s)
include leg

theorem state_of_leg : haul.state (leg.steps + 1) =
    ⟨s.1, Function.update (fun _ => idle) 0 s.2.1, Function.update (fun _ => none) 0 (some (0, s.2.2))⟩ := by
  show System.alone site "x" "." (stocked (world [] 0)) idle (leg.steps + 1) = _
  rw [System.alone_succ, leg.run]

theorem world_of_leg : (haul.state (leg.steps + 1)).world = s.1 := by
  rw [state_of_leg leg]

theorem checkout_of_leg : (haul.state (leg.steps + 1)).checkout 0 = some (0, s.2.2) := by
  rw [state_of_leg leg]
  simp

end leg

namespace Haul

def fetch : Haul (stocked (world [] 0), idle, .start "x" ".")
    (stocked before, building, .clone job scratch) := ⟨9, by decide +kernel, fun _ _ => trivial⟩

def cloneStep : Haul (stocked before, building, .clone job scratch)
    (stocked (cloning (cloneOf stock)), building, .readHead job scratch) :=
  .one ((Phase.run_one ..).trans (Phase.clone_step 0 building
    (clone_of_commits _ stock rfl ofTree?_stock))) trivial trivial

def headStep : Haul (stocked (cloning (cloneOf stock)), building, .readHead job scratch)
    (stocked (cloning (cloneOf stock)), building, .strip build) :=
  .one ((Phase.run_one ..).trans (Phase.readHead_step 0 building
    (head_of_commits _ stock (by decide) (by decide)))) trivial trivial

def copy : Haul (stocked (cloning (cloneOf stock)), building, .strip build)
    (filled [(workScratch.name, .dir 0o700 stock)] [], building, .hash build workspace) :=
  ⟨6, by decide +kernel, fun _ _ => trivial⟩

variable {h : ArchiveHash}

theorem items_filled : items (filled [(workScratch.name, .dir 0o700 stock)] []).disk workspace =
    .ok stockItems := by
  have hstat : (filled [(workScratch.name, .dir 0o700 stock)] []).disk.stat workspace =
    .ok (.dir 0o700 stock) := rfl
  rw [items, hstat]
  rfl

def hashStep (hh : ofItems stockItems = h) :
    Haul (filled [(workScratch.name, .dir 0o700 stock)] [], building, .hash build workspace)
      (filled [(workScratch.name, .dir 0o700 stock)] [], building, .share build workspace h) := by
  refine .one ((Phase.run_one ..).trans (Phase.hash_step 0 building ?_)) trivial trivial
  exact (ofTree_of_items items_filled).trans (congrArg Except.ok hh)

def shareStep :
    Haul (filled [(workScratch.name, .dir 0o700 stock)] [], building, .share build workspace h)
      (filled [(workScratch.name, .dir 0o755 stock)] [], building, .publish build workspace h) :=
  .one rfl trivial trivial

def make (hh : ofItems stockItems = h) : Haul (stocked (world [] 0), idle, .start "x" ".")
    (filled [(workScratch.name, .dir 0o755 stock)] [], building, .publish build workspace h) :=
  fetch.trans <| cloneStep.trans <| headStep.trans <| copy.trans <| (hashStep hh).trans shareStep

theorem isSound_make (hh : ofItems stockItems = h) :
    (filled [(workScratch.name, .dir 0o755 stock)] []).IsSound site seat := by
  have hs := (haul.isSound ((make hh).steps + 1)).world
  rwa [world_of_leg (make hh)] at hs

theorem isShort_archive (hh : ofItems stockItems = h) :
    Disk.IsShort (site.archivePath h) (seat.names ++ [Area.archives.name] ++ [h.name]) := by
  have hlength : h.name.length = 64 := hh ▸ length_name_ofItems stockItems
  refine ⟨?_, fun n hn => ?_⟩
  · have hle := length_join_le (site.areaPath .archives) h.name
    have harea : (site.areaPath .archives).length = 11 := by decide
    rw [Site.archivePath_eq, Disk.pathLimit]
    omega
  · rcases List.mem_append.mp hn with hn | hn
    · exact (by decide : ∀ n ∈ seat.names ++ [Area.archives.name], n.length ≤ 255) n hn
    · rw [List.mem_singleton.mp hn, hlength]
      decide

def publishStep (hh : ofItems stockItems = h) :
    Haul (filled [(workScratch.name, .dir 0o755 stock)] [], building, .publish build workspace h)
      (filled [] [(h.name, .dir 0o755 stock)], building,
        .discard job [workspace, scratch] (.ok ⟨commit, some h⟩)) := by
  have hname : IsName h.name := hh ▸ isName_ofItems stockItems
  have hm : (filled [(workScratch.name, .dir 0o755 stock)] []).Made site seat workspace workScratch :=
    ⟨rfl, by decide, by decide, fun a => by cases a <;> exact ⟨_, _, rfl⟩⟩
  have hget : (filled [(workScratch.name, .dir 0o755 stock)] []).disk.root.get?
      (seat.scratch workScratch) = some (.dir 0o755 stock) := rfl
  have hpublish := World.publish_eq (isSound_make hh) hm (by decide) hget nofun hname
  rw [if_pos (isShort_archive hh)] at hpublish
  exact .one ((Phase.run_one ..).trans (Phase.publish_step 0 building hpublish)) trivial trivial

def clear : Haul (filled [] [(h.name, .dir 0o755 stock)], building,
      .discard job [workspace, scratch] (.ok ⟨commit, some h⟩))
    (stocked (world (cache [] [] [(h.name, .dir 0o755 stock)]) 2), remembering h,
      .done (.ok ⟨commit, some h⟩)) := ⟨6, rfl, fun _ _ => trivial⟩

end Haul

/-- Once the file has become an archive, it stays there until the checkout is done. -/
theorem archives_intact_stocked : ∃ (h : ArchiveHash) (s s' : System) (x x' : Node),
    System.Steps site seat (haul.state 0) s ∧ System.Steps site seat s s' ∧
    s.checkout 0 = some (0, .discard job [workspace, scratch] (.ok ⟨commit, some h⟩)) ∧
    s.world.disk.root.get? (seat.archive h.name) = some x ∧ x.children = stock ∧ IsHash x h ∧
    s'.checkout 0 = some (0, .done (.ok ⟨commit, some h⟩)) ∧
    s'.world.disk.root.get? (seat.archive h.name) = some x' ∧ x'.children = stock := by
  obtain ⟨h, hh⟩ : ∃ h, ofItems stockItems = h := ⟨_, rfl⟩
  have hmade : Haul (stocked (world [] 0), idle, .start "x" ".") _ :=
    (Haul.make hh).trans (Haul.publishStep hh)
  let hdone := hmade.trans Haul.clear
  have hafter : System.Steps site seat (haul.state (hmade.steps + 1)) (haul.state (hdone.steps + 1)) :=
    haul.steps (Nat.succ_le_succ (Nat.le_add_right ..))
  have hbefore := haul.steps (Nat.zero_le (hmade.steps + 1))
  have hget : (haul.state (hmade.steps + 1)).world.disk.root.get? (seat.archive h.name) =
      some (.dir 0o755 stock) := by
    have harchives : ∀ n : Name, (filled [] [(h.name, .dir 0o755 stock)]).disk.root.get?
        (seat.archive n) = (Entries.find? n [(h.name, Node.dir 0o755 stock)]).bind (·.get? []) :=
      fun _ => rfl
    rw [world_of_leg, harchives, Entries.find?, if_pos rfl]
    rfl
  obtain ⟨hall, hkept, -⟩ := System.archives_intact haul.initial hbefore hafter
  obtain ⟨-, h', hname, hhash, -⟩ := hall h.name _ hget
  obtain ⟨x', hx', hsame⟩ := hkept h.name _ hget
  have hstock : IsHash (.dir 0o755 stock) h := ⟨workspace, stockItems, rfl, hh⟩
  obtain rfl := hstock.eq_of_name_eq hhash hname
  exact ⟨h, _, _, _, x', hbefore, hafter, checkout_of_leg hmade, hget, rfl, hhash,
    checkout_of_leg hdone, hx', hsame.resolve_right fun hempty => by cases hempty.1⟩

end Solo

end Depot
