import Depot.Proofs.Archive.Fingerprint
import Depot.Proofs.Checkout.Account
import Depot.Proofs.Files.Deciding

/-!
Where the archive of an answer comes from. What was committed is hashed, and a hash is all that an
archive is known by; so an archive holds what was committed as far as the hash tells trees apart.
-/

namespace Depot

open Files Fingerprint

theorem ArchiveHash.ofDigest_injective {bs cs : Bytes} (h : ofDigest bs = ofDigest cs) : bs = cs := by
  have htext := congrArg (fun h => h.text.toList) h
  simp only [ofDigest, String.toList_ofList] at htext
  exact Hex.encode_injective htext

namespace Fingerprint

/-- Links that a stream does not tell apart have targets with the same parts. -/
theorem SameTree.tidyTarget_eq {a b : Node} (h : SameTree a b) {place : Place} {t u : Bytes}
    (ha : a.get? place = some (.link t)) (hb : b.get? place = some (.link u)) :
    Tar.tidyTarget t = Tar.tidyTarget u := by
  have hmark := h place
  rw [ha, hb] at hmark
  have hmark : Tar.linkMark t = Tar.linkMark u :=
    Option.some.inj (Option.some.inj hmark)
  unfold Tar.linkMark at hmark
  split_ifs at hmark
  · exact Tar.Mark.tidyLink.inj hmark
  · rw [Tar.Mark.rawLink.inj hmark]

end Fingerprint

namespace Run

variable {site : Site} {seat : Seat} (run : Run site seat)

/-- The trees that are archives at some time, or about to be: their hash is taken, or has been. -/
def Trees : Set Node :=
  {x | ∃ n, (∃ name, (run.world n).disk.root.get? (seat.archive name) = some x) ∨
    ∃ me build workspace, (run.At n me (.hash build workspace) ∨
      ∃ h, run.At n me (.publish build workspace h)) ∧
      (run.world n).Has site seat workspace (· = x)}

/-- What hashes are taken of. -/
def Streams : Set Bytes :=
  {stream | ∃ x ∈ run.Trees, ∃ root is,
    (x.beneath.mapM fun e => item root e.1 e.2) = .ok is ∧ Tar.stream is = stream}

variable {run}

theorem isSound_of_mem_trees {x : Node} (hx : x ∈ run.Trees) : x.IsSound := by
  obtain ⟨n, ⟨name, hget⟩ | ⟨me, build, workspace, -, σ, _, -, hget, rfl⟩⟩ := hx
  · exact (run.isSound n).world.tree.get? hget
  · exact (run.isSound n).world.tree.get? hget

/-- Trees of one hash are the same, if no hash is that of two streams. -/
theorem sameTree_of_isHash (hfit : ∀ x ∈ run.Trees, FilesFit x)
    (hfree : Set.InjOn Sha256.digest run.Streams) {a x : Node} {h : ArchiveHash} (ha : a ∈ run.Trees)
    (hx : x ∈ run.Trees) (hadir : a.isDir = true) (hxdir : x.isDir = true) (hah : IsHash a h)
    (hxh : IsHash x h) : SameTree a x := by
  obtain ⟨root₁, is₁, h₁, rfl⟩ := hah
  obtain ⟨root₂, is₂, h₂, heq⟩ := hxh
  have hdigest := ArchiveHash.ofDigest_injective heq
  have hstream : Tar.stream is₂ = Tar.stream is₁ :=
    hfree ⟨x, hx, root₂, is₂, h₂, rfl⟩ ⟨a, ha, root₁, is₁, h₁, rfl⟩ hdigest
  exact (sameTree_iff_stream_eq hadir hxdir (isSound_of_mem_trees ha) (isSound_of_mem_trees hx)
    (hfit a ha) (hfit x hx) h₁ h₂).mpr hstream.symm

/-- An archive that is there holds what an archive of its hash was made of. -/
theorem sameTree_of_archive (hfit : ∀ x ∈ run.Trees, FilesFit x)
    (hfree : Set.InjOn Sha256.digest run.Streams) {n : Nat} {a x : Node} {h : ArchiveHash}
    (ha : (run.world n).disk.root.get? (seat.archive h.name) = some a) (hx : x ∈ run.Trees)
    (hxdir : x.isDir = true) (hxh : IsHash x h) : SameTree a x := by
  obtain ⟨hadir, h', hname, hah⟩ := (run.isSound n).archives _ _ ha
  obtain rfl := hxh.eq_of_name_eq hah hname
  exact sameTree_of_isHash hfit hfree ⟨n, .inl ⟨_, ha⟩⟩ hx hadir hxdir hah hxh

theorem Hashes.mem_trees {n me : Nat} {build : Build} {x : Node} {h : ArchiveHash}
    (hx : run.Hashes n me build x h) : x ∈ run.Trees ∧ x.isDir = true := by
  obtain ⟨source, workspace, -, hme, hhas⟩ := hx.copied
  refine ⟨⟨n, .inr ⟨me, build, workspace, .inl hme, hhas⟩⟩, ?_⟩
  obtain ⟨b, hme⟩ := hme
  obtain ⟨σ, y, hm, hget, hdir⟩ := ((run.isSound n).checkouts me b _ hme).ready
  obtain ⟨τ, _, hm', hget', rfl⟩ := hhas
  obtain rfl := (run.isSound n).world.seat.eq_of_path_eq (hm.path.symm.trans hm'.path)
  obtain rfl := Option.some.inj (hget.symm.trans hget')
  exact hdir

/-- The archive of an answer holds what was copied for the path from the tree of the commit, in a
build of its own or of an earlier checkout: the same places, the same kinds of nodes, the same data
and the same leave to run files, and targets with the same parts, so that targets without idle parts
are the same byte for byte. And an archive that is there when one of its hash is published holds
what the workspace holds. -/
theorem archive_of_answer (run : Run site seat) (hroom : seat.HasRoom)
    (hfit : ∀ x ∈ run.Trees, FilesFit x) (hfree : Set.InjOn Sha256.digest run.Streams) :
    (∀ since n me branch path outcome h, run.At since me (.start branch path) → since ≤ n →
      run.At n me (.done (.ok outcome)) → outcome.archive = some h →
      ∃ normal, Path.normalize path = .ok normal ∧ ∃ a,
        (run.world n).disk.root.get? (seat.archive h.name) = some a ∧
        ∃ k ≤ n, ∃ other build x, build.commit = outcome.commit ∧ build.job.key.path = normal ∧
          run.Hashes k other build x h ∧ SameTree a x ∧
          ∀ place t u, a.get? place = some (.link t) → x.get? place = some (.link u) →
            Tar.tidyTarget t = Tar.tidyTarget u) ∧
      ∀ n me build workspace h a x, run.At n me (.publish build workspace h) →
        (run.world n).Has site seat workspace (· = x) →
        (run.world n).disk.root.get? (seat.archive h.name) = some a → SameTree a x := by
  constructor
  · intro since n me branch path outcome h hstart hn hdone harchive
    obtain ⟨normal, hnormal, htrue⟩ := run.isAnswer_of_done hroom hstart hn hdone outcome rfl
    obtain ⟨-, hyields⟩ := htrue outcome rfl
    rw [harchive] at hyields
    obtain ⟨k, hk, other, build, hkey, x, hx⟩ := hyields
    obtain ⟨hcommit, hpath⟩ := CheckoutKey.mk.inj hkey
    obtain ⟨b, hme⟩ := hdone
    obtain ⟨a, ha⟩ := ((run.isSound n).checkouts me b _ hme).result _ rfl outcome h rfl harchive
    have hsame := sameTree_of_archive hfit hfree ha hx.mem_trees.1 hx.mem_trees.2 hx.isHash
    exact ⟨normal, hnormal, a, ha, k, hk, other, build, x, hcommit.symm, hpath.symm, hx, hsame,
      fun _ _ _ => hsame.tidyTarget_eq⟩
  · intro n me build workspace h a x hme hx ha
    have hmem : x ∈ run.Trees := ⟨n, .inr ⟨me, build, workspace, .inr ⟨h, hme⟩, hx⟩⟩
    obtain ⟨b, hme⟩ := hme
    obtain ⟨σ, y, hm, hget, hdir, hhash⟩ := ((run.isSound n).checkouts me b _ hme).ready
    obtain ⟨τ, _, hm', hget', rfl⟩ := hx
    obtain rfl := (run.isSound n).world.seat.eq_of_path_eq (hm.path.symm.trans hm'.path)
    obtain rfl := Option.some.inj (hget.symm.trans hget')
    exact sameTree_of_archive hfit hfree ha hmem hdir hhash

end Run

deriving instance DecidableEq for Snapshot, World, Held, Cache, Builder, Phase

/-! A repository with one branch, at a commit that holds nothing, and a checkout of this branch. -/

namespace Solo

def id : Octets := List.replicate 40 'a'

def commit : CommitId := ⟨String.ofList id⟩

def ref : Octets := octets "refs/heads/x"

def repository : Node := .dir 0o755 [
  (Repository.headName, .file 0o644 (Utf8.ofString "ref: refs/heads/x\n")),
  (Objects.objectsName, .dir 0o755 [
    (Utf8.ofString "aa", .dir 0o755 [(List.replicate 38 0x61, .file 0o444 [])])]),
  (Repository.refsName, .dir 0o755 [(Utf8.ofString "heads", .dir 0o755 [
    (Utf8.ofString "x", .file 0o644 (Octets.toBytes (id ++ ['\n'])))])])]

def world (cache : Entries) (scratches : Nat) : World where
  disk := { root := .dir 0o755 [([0x63], .dir 0o755 cache), ([0x72], repository)] }
  commits := [(commit, ⟨[], []⟩)]
  scratches := scratches

def cache (clones works archives : Entries) : Entries :=
  [(Area.archives.name, .dir 0o755 archives), (Area.works.name, .dir 0o755 works),
    (Area.clones.name, .dir 0o755 clones)]

def site : Site := ⟨[0x2F, 0x72], [0x2F, 0x63]⟩

def seat : Seat := ⟨[], [[0x63]]⟩

def cloneScratch : Scratch := ⟨.clone, 1⟩
def workScratch : Scratch := ⟨.work, 2⟩

def scratch : Bytes := cloneScratch.path site []
def workspace : Bytes := workScratch.path site []

def before : World := world (cache [(cloneScratch.name, .dir 0o700 [])] [] []) 1

def cloning (x : Node) : World :=
  world (cache [(cloneScratch.name, .dir 0o700 [(Phase.checkoutName, x)])] [] []) 1

def working : World :=
  world (cache [(cloneScratch.name, .dir 0o700 [(Phase.checkoutName, .dir 0o755 [])])]
    [(workScratch.name, .dir 0o700 [])] []) 2

def clone : Node :=
  .dir 0o755 [(Repository.gitName, .dir 0o755 (World.cloneRepository site.repository ref id))]

def key : CheckoutKey := ⟨commit, "."⟩
def job : Job := ⟨"x", key, 0⟩
def build : Build := ⟨job, scratch, commit⟩
def source : Bytes := Disk.pathOf (seat.scratch cloneScratch ++ [Phase.checkoutName])

def hash : ArchiveHash := ⟨"5f70bf18a086007016e948b04aed3b82103a36bea41755b6cddfaf10ace3c6ef"⟩

def outcome : Outcome := ⟨commit, some hash⟩

def idle : Builder := { isReady := true }
def locking : Builder := { cache := { locks := [(key, 0)], fresh := 1 }, isReady := true }
def building : Builder := { locking with held := ⟨[(0, 0)]⟩ }
def done : Builder := { cache := { entries := [(key, some hash)], fresh := 1 }, isReady := true }

def published : Entries := [(hash.name, .dir 0o755 [])]

def publishing : World :=
  world (cache [(cloneScratch.name, .dir 0o700 [(Phase.checkoutName, .dir 0o755 [])])] []
    published) 2

/-- Nothing is in any archive or workspace, and no other workspace is there to be hashed. -/
def isCalm (s : World × Builder × Phase) : Bool :=
  ([Area.archives, .works].all fun a => match s.1.disk.root.get? (seat.area a) with
    | some node => node.children.all fun e => e.2.isDir && e.2.children.isEmpty
    | none => true) &&
  s.1.disk.cwd.isEmpty && match s.2.2 with
    | .hash _ path | .publish _ path _ => path = workspace
    | _ => true

/-- Some steps of the checkout, with all calm on the way. -/
abbrev Stretch := Phase.Leg site 0 fun s => isCalm s = true

namespace Stretch

def lock : Stretch (world [] 0, idle, .start "x" ".") (world [] 0, locking, .acquire job) :=
  ⟨5, by decide +kernel, by decide +kernel⟩

def makeDirs : Stretch (world [] 0, locking, .acquire job)
    (world (cache [] [] []) 0, building, .openScratch job) :=
  ⟨3, by decide +kernel, by decide +kernel⟩

def openScratch : Stretch (world (cache [] [] []) 0, building, .openScratch job)
    (before, building, .clone job scratch) := ⟨1, by decide +kernel, by decide +kernel⟩

def strip : Stretch (cloning clone, building, .strip build)
    (cloning (.dir 0o755 []), building, .locate build) := ⟨1, by decide +kernel, by decide +kernel⟩

def copy : Stretch (cloning (.dir 0o755 []), building, .locate build)
    (working, building, .hash build workspace) := ⟨4, by decide +kernel, by decide +kernel⟩

def publish : Stretch (working, building, .share build workspace hash)
    (publishing, building, .discard job [workspace, scratch] (.ok outcome)) :=
  ⟨2, by decide +kernel, by decide +kernel⟩

def discard : Stretch (publishing, building, .discard job [workspace, scratch] (.ok outcome))
    (world (cache [] [] published) 2, building, .remember job (.ok outcome)) :=
  ⟨3, by decide +kernel, by decide +kernel⟩

def remember : Stretch (world (cache [] [] published) 2, building, .remember job (.ok outcome))
    (world (cache [] [] published) 2, done, .done (.ok outcome)) :=
  ⟨3, by decide +kernel, by decide +kernel⟩

end Stretch

def place : Place := seat.scratch cloneScratch ++ [Phase.checkoutName]

theorem put_cloning (x y : Node) : (cloning x).disk.put place y = (cloning y).disk := rfl

def cloneOf (tree : Entries) : Node := .dir 0o755 (Entries.insert Repository.gitName
  (.dir 0o755 (World.cloneRepository site.repository ref id)) tree)

theorem clone_of_commits (commits : List (CommitId × Snapshot)) (tree : Entries)
    (hsnapshot : assoc? commit commits = some ⟨tree, []⟩)
    (htree : WorkTree.ofTree? tree = some tree) :
    History.clone site.repository "x" (Build.checkout scratch) { before with commits := commits } =
      ({ cloning (cloneOf tree) with commits := commits }, .ok ()) := by
  have hsource : World.cloneSource? before.disk site.repository = some site.repository := by
    decide +kernel
  have hfree : World.isFree before.disk (Build.checkout scratch) = true := by decide +kernel
  have habove : ((Path.parent? (Build.checkout scratch)).bind fun dir =>
      (before.disk.makeDirs dir).toOption).getD before.disk = before.disk := by decide +kernel
  have hmade : before.disk.makeDirs (Build.checkout scratch) =
      .ok (cloning (.dir 0o755 [])).disk := by decide +kernel
  have hloc : (cloning (.dir 0o755 [])).disk.locate (Build.checkout scratch) =
      .ok (place, .dir 0o755 []) := by decide +kernel
  have hfound : World.branchOrTag? before.disk site.repository "x" = .ok (some (ref, id)) := by
    decide +kernel
  have hobject : Objects.areIn before.disk site.repository [id] = true := by decide +kernel
  have hknows : ({ before with commits := commits } : World).knows site.repository id = true := by
    rw [World.knows, show ({ before with commits := commits } : World).disk = before.disk from rfl,
      hobject, show (⟨String.ofList id⟩ : CommitId) = commit from rfl, hsnapshot]
    rfl
  have hobjects : Objects.areIn (cloning (.dir 0o755 [])).disk site.repository [] = true := by
    decide +kernel
  have hclone := World.clone_eq (w := { before with commits := commits }) hsource hfree habove hmade
    hloc hfound hknows hsnapshot hobjects htree
  rw [put_cloning] at hclone
  exact History.clone_of_code rfl (by decide +kernel) hclone rfl

theorem clone_eq : History.clone site.repository "x" (Build.checkout scratch) before =
    (cloning clone, .ok ()) :=
  clone_of_commits before.commits [] rfl (by decide)

def Stretch.cloneStep : Stretch (before, building, .clone job scratch)
    (cloning clone, building, .readHead job scratch) :=
  .one ((Phase.run_one ..).trans (Phase.clone_step 0 building clone_eq)) (by decide +kernel)
    (by decide +kernel)

theorem isSound_cloning_clone : (cloning clone).disk.root.IsSound := by decide

theorem isRef : RefName.IsRef ref :=
  ⟨by decide, forall_mem_of_all (by decide), octets "heads/x", by decide⟩

theorem isId : Refs.IsId id := by
  refine ⟨rfl, fun c hc => ?_⟩
  rw [List.eq_of_mem_replicate hc]
  decide

theorem head_of_commits (commits : List (CommitId × Snapshot)) (tree : Entries)
    (hs : (cloning (cloneOf tree)).disk.root.IsSound)
    (hmissing : Refs.readLoose (cloning (cloneOf tree)).disk
      (Path.below (Disk.pathOf place) [Repository.gitName]) ref = .error .missing) :
    History.head (Build.checkout scratch) { cloning (cloneOf tree) with commits := commits } =
      ({ cloning (cloneOf tree) with commits := commits }, .ok commit) := by
  have hget : ∀ x, (cloning x).disk.root.get? place = some x := fun _ => rfl
  have hloc : ∀ mode es, (cloning (.dir mode es)).disk.locate (Build.checkout scratch) =
      .ok (place, .dir mode es) := fun _ _ => rfl
  have habs : Path.isAbsolute (Build.checkout scratch) = true := by decide
  have hroom : (Disk.pathOf place).length + 32 ≤ Disk.pathLimit := by decide
  exact History.head_eq_of_locate (w := { cloning (cloneOf tree) with commits := commits }) hs rfl
    habs (hloc _ _) hroom isRef isId (hget _) hmissing

theorem head_eq : History.head (Build.checkout scratch) (cloning clone) =
    (cloning clone, .ok commit) :=
  head_of_commits (cloning clone).commits [] isSound_cloning_clone (by decide)

def Stretch.headStep : Stretch (cloning clone, building, .readHead job scratch)
    (cloning clone, building, .strip build) :=
  .one ((Phase.run_one ..).trans (Phase.readHead_step 0 building head_eq)) (by decide +kernel)
    (by decide +kernel)

/-- Beside any repository the builders can begin. -/
theorem isInitial_beside {r : Node} (hr : r.IsSound) {commits : List (CommitId × Snapshot)}
    (hcommits : ∀ c ∈ commits, (Node.dir 0o755 c.2.tree).IsSound) (branch path : String) :
    (System.alone site branch path
      { disk := { root := .dir 0o755 [([0x63], .dir 0o755 []), ([0x72], r)] }, commits := commits }
      idle 0).IsInitial site seat := by
  have hbase : [Path.slash] ≠ [] ∧ (0 : UInt8) ∉ [Path.slash] := by decide
  have hextends : Extends [Path.slash] [[0x63]] [0x2F, 0x63] :=
    (Extends.refl hbase.1 hbase.2).join (by decide)
  let d : Disk := { root := .dir 0o755 [([0x63], .dir 0o755 []), ([0x72], r)] }
  have hleads : d.LeadsTo [Path.slash] [] := Disk.leadsTo_root _ ⟨_, _, rfl⟩
  have hopen : ∀ a : Area, d.root.IsOpen [] ([[0x63]] ++ [a.name]) := by
    intro a part hpart
    have hcases : part = [] ∨ ∃ rest, part = [0x63] :: rest ∧ (rest = [] ∨ rest = [a.name]) := by
      simpa [List.prefix_cons_iff] using hpart
    rcases hcases with rfl | ⟨_, rfl, rfl | rfl⟩
    · exact .inr ⟨_, _, rfl⟩
    · exact .inr ⟨_, _, rfl⟩
    · exact .inl rfl
  have hsound : d.root.IsSound := by
    have hempty : (Node.dir 0o755 [([0x63], .dir 0o755 []), ([0x72], .dir 0o755 [])]).IsSound := by
      decide
    obtain ⟨hes, hall⟩ := Node.isSound_dir_iff.mp hempty
    refine Node.isSound_dir_iff.mpr ⟨hes.of_names rfl, List.forall_mem_cons.mpr
      ⟨hall _ List.mem_cons_self, List.forall_mem_singleton.mpr hr⟩⟩
  refine ⟨⟨hsound, ⟨⟨_, hleads, hextends⟩, ⟨_, hleads, hextends⟩, hopen⟩, ?_, rfl⟩, fun n x hx => ?_,
    fun b key h hget => ?_, fun me => rfl⟩
  · exact World.hasSoundTrees_of_isSound hcommits
  · cases hx
  · cases hget

theorem isInitial : (System.alone site "x" "." (world [] 0) idle 0).IsInitial site seat :=
  isInitial_beside (by decide +kernel) (List.forall_mem_singleton.mpr (World.isSound_empty 0o755))
    "x" "."

def Stretch.hashStep : Stretch (working, building, .hash build workspace)
    (working, building, .share build workspace hash) :=
  .one (by decide +kernel) (by decide +kernel) (by decide +kernel)

def Stretch.checkout : Stretch (world [] 0, idle, .start "x" ".")
    (world (cache [] [] published) 2, done, .done (.ok outcome)) :=
  lock.trans <| makeDirs.trans <| openScratch.trans <| cloneStep.trans <| headStep.trans <|
    strip.trans <| copy.trans <| hashStep.trans <| publish.trans <| discard.trans remember

theorem run_eq : Phase.run site 0 25 (world [] 0) idle (.start "x" ".") =
    (world (cache [] [] published) 2, done, .done (.ok outcome)) := Stretch.checkout.run

theorem run_done : (Phase.run site 0 25 (world [] 0) idle (.start "x" ".")).2.2 =
    .done (.ok outcome) := by rw [run_eq]

theorem isCalm_run (n : Nat) :
    isCalm (Phase.run site 0 n (world [] 0) idle (.start "x" ".")) = true := by
  by_cases hn : n ≤ 25
  · exact Stretch.checkout.holds n hn
  · obtain ⟨k, rfl⟩ := Nat.exists_eq_add_of_le (Nat.le_of_not_le hn)
    have hcalm : isCalm (Phase.run site 0 25 (world [] 0) idle (.start "x" ".")) = true :=
      Stretch.checkout.holds 25 le_rfl
    rw [Phase.run_add]
    rw [run_eq] at hcalm ⊢
    rw [Phase.run_done]
    exact hcalm

theorem isReady_idle : idle.isReady = true := rfl

theorem entries_idle : idle.cache.entries = [] := rfl

/-- The checkout by itself, for all times. -/
def run : Run site seat := .alone "x" "." isInitial isReady_idle entries_idle

theorem checkout_succ (n : Nat) : (run.state (n + 1)).checkout =
    Function.update (fun _ : Nat => none) 0
      (some (0, (Phase.run site 0 n (world [] 0) idle (.start "x" ".")).2.2)) := rfl

theorem at_of_run {n : Nat} {p : Phase}
    (h : (Phase.run site 0 n (world [] 0) idle (.start "x" ".")).2.2 = p) : run.At (n + 1) 0 p := by
  refine ⟨0, ?_⟩
  rw [checkout_succ, h, Function.update_self]

theorem run_of_at {n me : Nat} {p : Phase} (h : run.At (n + 1) me p) :
    (Phase.run site 0 n (world [] 0) idle (.start "x" ".")).2.2 = p := by
  obtain ⟨b, h⟩ := h
  rw [checkout_succ] at h
  rcases System.of_update h with ⟨-, hp⟩ | ⟨-, hnone⟩
  · exact hp.symm
  · cases hnone

theorem isEmpty_of_isCalm {s : World × Builder × Phase} (h : isCalm s = true) {a : Area}
    (ha : a ∈ [Area.archives, .works]) {n : Name} {x : Node}
    (hx : s.1.disk.root.get? (seat.entry a n) = some x) : x.isDir = true ∧ x.children = [] := by
  simp only [isCalm, Bool.and_eq_true] at h
  have harea := List.all_eq_true.mp h.1.1 a ha
  rw [Seat.entry, Node.get?_append] at hx
  obtain ⟨area, hget, hx⟩ := Option.bind_eq_some_iff.mp hx
  rw [hget] at harea
  rw [Node.get?_cons] at hx
  obtain ⟨y, hy, hyx⟩ := Option.bind_eq_some_iff.mp hx
  rw [Node.get?_nil] at hyx
  have hempty := List.all_eq_true.mp harea _ (Entries.mem_of_find? hy)
  rw [Option.some.inj hyx] at hempty
  simpa using hempty

theorem isCalm_world (n : Nat) : ∃ s, isCalm s = true ∧ s.1 = run.world n ∧
    ∀ me p, run.At n me p → s.2.2 = p := by
  cases n with
  | zero =>
    refine ⟨_, isCalm_run 0, rfl, ?_⟩
    rintro me p ⟨b, h⟩
    cases h
  | succ n => exact ⟨_, isCalm_run n, rfl, fun me p h => run_of_at h⟩

theorem children_of_mem_trees {x : Node} (hx : x ∈ run.Trees) : x.isDir = true ∧ x.children = [] := by
  obtain ⟨n, hx⟩ := hx
  obtain ⟨s, hcalm, hworld, hphase⟩ := isCalm_world n
  rw [← hworld] at hx
  rcases hx with ⟨name, hget⟩ | ⟨me, build, path, hme, σ, _, hm, hget, rfl⟩
  · exact isEmpty_of_isCalm hcalm (by simp) hget
  · have hpath : path = workspace ∧ s.1.disk.cwd = [] := by
      simp only [isCalm, Bool.and_eq_true, List.isEmpty_iff] at hcalm
      refine ⟨?_, hcalm.1.2⟩
      rcases hme with hme | ⟨h, hme⟩
      · simpa [hphase me _ hme] using hcalm.2
      · simpa [hphase me _ hme] using hcalm.2
    have hσ : σ = workScratch := by
      refine (run.isSound n).world.seat.eq_of_path_eq ?_
      have hsite := hm.path
      rw [hpath.1, workspace, ← hpath.2] at hsite
      rw [hworld] at hsite
      exact hsite.symm
    rw [hσ] at hget
    exact isEmpty_of_isCalm hcalm (a := .works) (by simp) hget

/-- The archive of the answer holds what was cloned. -/
theorem archive_of_answer_solo : ∃ a, (run.world 26).disk.root.get? (seat.archive hash.name) = some a ∧
    ∃ k ≤ 26, ∃ other build x, build.commit = commit ∧ build.job.key.path = "." ∧
      run.Hashes k other build x hash ∧ SameTree a x := by
  have hempty : ∀ x ∈ run.Trees, x.beneath = [] := fun x hx => by
    rw [Node.beneath_eq, (children_of_mem_trees hx).2]
    rfl
  have hfit : ∀ x ∈ run.Trees, FilesFit x := by
    intro x hx place mode data hget
    obtain ⟨hdir, hnone⟩ := children_of_mem_trees hx
    cases x with
    | dir m es =>
      obtain rfl : es = [] := hnone
      cases place <;> cases hget
    | _ => cases hdir
  have hfree : Set.InjOn Sha256.digest run.Streams := by
    rintro _ ⟨x, hx, root, is, his, rfl⟩ _ ⟨y, hy, root', is', his', rfl⟩ -
    rw [hempty x hx] at his
    rw [hempty y hy] at his'
    rw [← Except.ok.inj his, ← Except.ok.inj his']
  have hroom : seat.HasRoom := by
    unfold Seat.HasRoom
    decide
  have hstart : run.At 1 0 (.start "x" ".") := at_of_run rfl
  have hdone : run.At 26 0 (.done (.ok outcome)) := at_of_run run_done
  obtain ⟨normal, hnormal, a, ha, k, hk, other, build, x, hcommit, hpath, hhashes, hsame, -⟩ :=
    (run.archive_of_answer hroom hfit hfree).1 1 26 0 "x" "." outcome hash hstart (by decide)
      hdone rfl
  obtain rfl : "." = normal := Except.ok.inj
    ((by decide +kernel : Path.normalize "." = .ok ".").symm.trans hnormal)
  exact ⟨a, ha, k, hk, other, build, x, hcommit, hpath, hhashes, hsame⟩

end Solo

end Depot
