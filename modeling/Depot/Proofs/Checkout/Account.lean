import Depot.Proofs.Checkout.Run

/-!
Every step keeps what is known of the checkouts of a run, and of the memos: an entry of a memo is
there because a build for it has come to that outcome.
-/

namespace Depot

open Files Fingerprint

theorem length_joinWith_concat_le {α : Type} (sep : α) (parts : List (List α)) (part : List α) :
    (joinWith [sep] (parts ++ [part])).length ≤ (joinWith [sep] parts).length + part.length + 1 := by
  induction parts with
  | nil => simp [joinWith]
  | cons first parts ih =>
    cases parts with
    | nil =>
      simp [joinWith]
      omega
    | cons next parts =>
      simp only [List.cons_append, joinWith_cons_cons, List.length_append] at ih ⊢
      omega

namespace Files.Disk

theorem length_pathOf_append_le (place rest : Place) :
    (pathOf (place ++ rest)).length ≤
      (pathOf place).length + (rest.flatten.length + rest.length) := by
  induction rest generalizing place with
  | nil => simp
  | cons n rest ih =>
    have hone := length_joinWith_concat_le Path.slash place n
    have hrest := ih (place ++ [n])
    rw [List.append_cons, List.flatten_cons, List.length_append]
    simp only [pathOf, List.length_cons] at hrest ⊢
    omega

end Files.Disk

theorem Scratch.isAbsolute_path (σ : Scratch) (site : Site) (cwd : Place) :
    Path.isAbsolute (σ.path site cwd) = true := by
  have hcwd : Path.isAbsolute (Disk.pathOf cwd) = true := by simp [Disk.pathOf, Path.isAbsolute]
  rw [Scratch.path, Path.join]
  split_ifs with hslash
  · exact hslash
  · simp [Disk.pathOf, Path.isAbsolute]
  · simp [Disk.pathOf, Path.isAbsolute]

theorem Seat.HasRoom.checkout {seat : Seat} (h : seat.HasRoom) {σ : Scratch}
    (hname : σ.name.length ≤ 255) :
    (Disk.pathOf (seat.scratch σ ++ [Phase.checkoutName])).length + 32 ≤ Disk.pathLimit := by
  have harea : σ.purpose.area.name.length ≤ 13 := by cases σ.purpose <;> decide
  have hcheckout : Phase.checkoutName.length = 8 := by decide
  have hle := Disk.length_pathOf_append_le seat.top
    [σ.purpose.area.name, σ.name, Phase.checkoutName]
  have hplace : seat.scratch σ ++ [Phase.checkoutName] =
      seat.top ++ [σ.purpose.area.name, σ.name, Phase.checkoutName] := by
    simp [Seat.scratch, Seat.entry, Seat.area]
  simp only [List.flatten_cons, List.flatten_nil, List.append_nil, List.length_append,
    List.length_cons, List.length_nil] at hle
  rw [hplace]
  unfold Seat.HasRoom at h
  omega

theorem World.IsSound.head_eq {site : Site} {seat : Seat} {w w' : World} (hw : w.IsSound site seat)
    (hroom : seat.HasRoom) {scratch : Bytes} {commit head : CommitId} {tree es : Entries}
    (hclone : World.IsClone commit tree es)
    (hx : w.Has site seat scratch fun x =>
      x.get? [Phase.checkoutName] = some (Node.dir 0o755 es))
    (h : History.head (Build.checkout scratch) w = (w', .ok head)) : head = commit := by
  obtain ⟨σ, x, hm, hget, hcheckout⟩ := hx
  have hplace : w.disk.root.get? (seat.scratch σ ++ [Phase.checkoutName]) =
      some (.dir 0o755 es) := by
    rw [Node.get?_append, hget]
    exact hcheckout
  have habs : Path.isAbsolute (Build.checkout scratch) = true := by
    have hpath := σ.isAbsolute_path site w.disk.cwd
    rw [Build.checkout, hm.path, isAbsolute_join (fun hnil => ?_) (by decide), hpath]
    rw [hnil] at hpath
    cases hpath
  exact History.head_of_isClone hw.tree hw.undisturbed habs (hw.leads_checkout hm ⟨_, _, hplace⟩)
    (hroom.checkout (hm.length _ (by simp))) hplace hclone h

namespace Phase

theorem entries_step {site : Site} {me : Nat} {w w' : World} {b b' : Builder} {p p' : Phase}
    (h : p.step site me w b = (w', b', p')) : b'.cache.entries = b.cache.entries ∨
      ∃ job outcome, p = remember job (.ok outcome) ∧
        b'.cache = b.cache.insert ⟨outcome.commit, job.key.path⟩ outcome.archive := by
  unfold step at h
  split at h
  case h_5 branch key =>
    obtain ⟨-, rfl, -⟩ := Prod.mk.inj h
    exact .inl (Cache.entries_lockFor b.cache key)
  case h_23 job outcome =>
    obtain ⟨-, rfl, -⟩ := Prod.mk.inj h
    exact .inr ⟨job, outcome, rfl, rfl⟩
  all_goals
    left
    try dsimp only at h
    repeat' split at h
    all_goals
      obtain ⟨-, rfl, -⟩ := Prod.mk.inj h
      rfl

end Phase

namespace Run

variable {site : Site} {seat : Seat} {run : Run site seat}

/-- Whatever a memo holds, a build has come to. -/
def Recalls (run : Run site seat) (n : Nat) (b : Builder) : Prop :=
  ∀ key archive, b.cache.get? key = some archive → run.Yields n key archive

section step

variable {n since me : Nat} {b b' : Builder} {branch path : String} {p' : Phase}

theorem isTrue_recalled (hb : run.Recalls n b) {key : CheckoutKey} {archive : Option ArchiveHash}
    (htells : run.Tells since n branch key.commit) (hget : b.cache.get? key = some archive) :
    run.IsTrue since (n + 1) branch key.path (.ok ⟨key.commit, archive⟩) := by
  rintro _ ⟨⟩
  exact ⟨htells.later (Nat.le_succ n), (hb key archive hget).later (Nat.le_succ n)⟩

theorem accounts_start {branch' path' : String}
    (h : run.Accounts since n me branch path (.start branch' path'))
    (hstep : (Phase.start branch' path').step site me (run.world n) b =
      (run.world (n + 1), b', p')) : run.Accounts since (n + 1) me branch path p' := by
  obtain ⟨rfl, rfl⟩ := h
  unfold Phase.step at hstep
  dsimp only at hstep
  cases hnormal : Path.normalize path' with
  | error f =>
    simp only [hnormal] at hstep
    obtain ⟨-, -, rfl⟩ := Prod.mk.inj hstep
    exact isAnswer_error f
  | ok normal =>
    simp only [hnormal] at hstep
    obtain ⟨-, -, rfl⟩ := Prod.mk.inj hstep
    exact ⟨rfl, hnormal⟩

theorem accounts_prepare {branch' path' : String}
    (h : run.Accounts since n me branch path (.prepare branch' path'))
    (hstep : (Phase.prepare branch' path').step site me (run.world n) b =
      (run.world (n + 1), b', p')) : run.Accounts since (n + 1) me branch path p' := by
  unfold Phase.step at hstep
  dsimp only at hstep
  split_ifs at hstep
  · obtain ⟨-, -, rfl⟩ := Prod.mk.inj hstep
    exact h
  · split at hstep
    · obtain ⟨-, -, rfl⟩ := Prod.mk.inj hstep
      exact isAnswer_error _
    · obtain ⟨-, -, rfl⟩ := Prod.mk.inj hstep
      exact h

theorem accounts_resolve {branch' path' : String} (hsince : since ≤ n)
    (h : run.Accounts since n me branch path (.resolve branch' path'))
    (hstep : (Phase.resolve branch' path').step site me (run.world n) b =
      (run.world (n + 1), b', p')) : run.Accounts since (n + 1) me branch path p' := by
  obtain ⟨rfl, hnormal⟩ := h
  unfold Phase.step at hstep
  dsimp only at hstep
  split at hstep
  · obtain ⟨-, -, rfl⟩ := Prod.mk.inj hstep
    exact isAnswer_error _
  next w commit htip =>
    obtain ⟨-, -, rfl⟩ := Prod.mk.inj hstep
    exact ⟨rfl, hnormal, n, hsince, Nat.le_succ n, .inl (congrArg Prod.snd htip)⟩

theorem accounts_lookUp {branch' : String} {key : CheckoutKey} (hb : run.Recalls n b)
    (h : run.Accounts since n me branch path (.lookUp branch' key))
    (hstep : (Phase.lookUp branch' key).step site me (run.world n) b =
      (run.world (n + 1), b', p')) : run.Accounts since (n + 1) me branch path p' := by
  obtain ⟨rfl, hnormal, htells⟩ := h
  unfold Phase.step at hstep
  dsimp only at hstep
  split at hstep
  next archive hget =>
    obtain ⟨-, -, rfl⟩ := Prod.mk.inj hstep
    exact fun _ _ => ⟨key.path, hnormal, isTrue_recalled hb htells hget⟩
  · obtain ⟨-, -, rfl⟩ := Prod.mk.inj hstep
    exact ⟨rfl, hnormal, htells.later (Nat.le_succ n)⟩

theorem accounts_askLock {branch' : String} {key : CheckoutKey}
    (h : run.Accounts since n me branch path (.askLock branch' key))
    (hstep : (Phase.askLock branch' key).step site me (run.world n) b =
      (run.world (n + 1), b', p')) : run.Accounts since (n + 1) me branch path p' := by
  obtain ⟨rfl, hnormal, htells⟩ := h
  obtain ⟨-, -, rfl⟩ := Prod.mk.inj hstep
  exact ⟨rfl, hnormal, htells.later (Nat.le_succ n)⟩

theorem accounts_acquire {job : Job} (h : run.Accounts since n me branch path (.acquire job))
    (hstep : (Phase.acquire job).step site me (run.world n) b = (run.world (n + 1), b', p')) :
    run.Accounts since (n + 1) me branch path p' := by
  have hfor : run.IsFor since (n + 1) branch path job := IsFor.later h (Nat.le_succ n)
  unfold Phase.step at hstep
  dsimp only at hstep
  split at hstep
  · obtain ⟨-, -, rfl⟩ := Prod.mk.inj hstep
    exact hfor
  · obtain ⟨-, -, rfl⟩ := Prod.mk.inj hstep
    exact hfor

theorem accounts_lookAgain {job : Job} (hb : run.Recalls n b)
    (h : run.Accounts since n me branch path (.lookAgain job))
    (hstep : (Phase.lookAgain job).step site me (run.world n) b = (run.world (n + 1), b', p')) :
    run.Accounts since (n + 1) me branch path p' := by
  unfold Phase.step at hstep
  dsimp only at hstep
  split at hstep
  next archive hget =>
    obtain ⟨-, -, rfl⟩ := Prod.mk.inj hstep
    exact fun _ _ => ⟨job.key.path, h.2.1, isTrue_recalled hb h.2.2 hget⟩
  · obtain ⟨-, -, rfl⟩ := Prod.mk.inj hstep
    exact IsFor.later h (Nat.le_succ n)

theorem accounts_failed {job : Job} (h : run.IsFor since n branch path job) (paths : List Bytes)
    (f : Failure) : run.Accounts since (n + 1) me branch path (.discard job paths (.error f)) :=
  ⟨h.later (Nat.le_succ n), isTrue_error f⟩

theorem accounts_makeDirs {job : Job} (h : run.Accounts since n me branch path (.makeDirs job))
    (hstep : (Phase.makeDirs job).step site me (run.world n) b = (run.world (n + 1), b', p')) :
    run.Accounts since (n + 1) me branch path p' := by
  unfold Phase.step at hstep
  dsimp only at hstep
  split at hstep
  · obtain ⟨-, -, rfl⟩ := Prod.mk.inj hstep
    exact accounts_failed h _ _
  · obtain ⟨-, -, rfl⟩ := Prod.mk.inj hstep
    exact IsFor.later h (Nat.le_succ n)

theorem accounts_openScratch {job : Job}
    (h : run.Accounts since n me branch path (.openScratch job))
    (hstep : (Phase.openScratch job).step site me (run.world n) b = (run.world (n + 1), b', p')) :
    run.Accounts since (n + 1) me branch path p' := by
  unfold Phase.step at hstep
  dsimp only at hstep
  split at hstep
  · obtain ⟨-, -, rfl⟩ := Prod.mk.inj hstep
    exact IsFor.later h (Nat.le_succ n)
  · obtain ⟨-, -, rfl⟩ := Prod.mk.inj hstep
    exact accounts_failed h _ _

theorem accounts_clone {job : Job} {scratch : Bytes} (hsince : since ≤ n)
    (hp : (Phase.clone job scratch).IsSound site seat (run.world n))
    (h : run.Accounts since n me branch path (.clone job scratch))
    (hstep : (Phase.clone job scratch).step site me (run.world n) b =
      (run.world (n + 1), b', p')) : run.Accounts since (n + 1) me branch path p' := by
  obtain ⟨rfl, hnormal, htells⟩ := h
  unfold Phase.step at hstep
  dsimp only at hstep
  cases hclone : History.clone site.repository job.branch (Build.checkout scratch) (run.world n) with
  | mk w r =>
  obtain ⟨-, hcloned⟩ := World.clone_keeps (run.isSound n).world hp.ready hclone
  cases r with
  | error f =>
    simp only [hclone] at hstep
    obtain ⟨-, -, rfl⟩ := Prod.mk.inj hstep
    exact accounts_failed ⟨rfl, hnormal, htells⟩ _ _
  | ok u =>
    simp only [hclone] at hstep
    obtain ⟨hworld, hrest⟩ := Prod.mk.inj hstep
    obtain ⟨-, rfl⟩ := Prod.mk.inj hrest
    obtain ⟨commit, tree, es, hclones, hx⟩ := hcloned rfl
    obtain ⟨_, _, _, -, -, -, htree, -⟩ := id hclones
    exact ⟨⟨rfl, hnormal, htells.later (Nat.le_succ n)⟩, commit, tree, es,
      ⟨n, hsince, Nat.le_succ n, .inr ⟨tree, es, hclones⟩⟩, ⟨n, Nat.le_succ n, htree⟩,
      hclones.isClone, hworld ▸ hx⟩

theorem accounts_readHead {job : Job} {scratch : Bytes} (hroom : seat.HasRoom)
    (h : run.Accounts since n me branch path (.readHead job scratch))
    (hstep : (Phase.readHead job scratch).step site me (run.world n) b =
      (run.world (n + 1), b', p')) : run.Accounts since (n + 1) me branch path p' := by
  obtain ⟨hfor, commit, tree, es, htells, htree, hclone, hx⟩ := h
  have hw := (run.isSound n).world
  unfold Phase.step at hstep
  dsimp only at hstep
  cases hhead : History.head (Build.checkout scratch) (run.world n) with
  | mk w r =>
  obtain rfl : w = run.world n :=
    (congrArg Prod.fst hhead).symm.trans (History.head_fst hw.undisturbed)
  cases r with
  | error f =>
    simp only [hhead] at hstep
    obtain ⟨-, -, rfl⟩ := Prod.mk.inj hstep
    exact accounts_failed hfor _ _
  | ok head =>
    simp only [hhead] at hstep
    obtain ⟨hworld, hrest⟩ := Prod.mk.inj hstep
    obtain ⟨-, rfl⟩ := Prod.mk.inj hrest
    obtain rfl := hw.head_eq hroom hclone hx hhead
    exact ⟨hfor.later (Nat.le_succ n), htells.later (Nat.le_succ n), tree, es,
      htree.later (Nat.le_succ n), hclone, hworld ▸ hx⟩

theorem accounts_strip {build : Build} (h : run.Accounts since n me branch path (.strip build))
    (hstep : (Phase.strip build).step site me (run.world n) b = (run.world (n + 1), b', p')) :
    run.Accounts since (n + 1) me branch path p' := by
  obtain ⟨hfor, htells, tree, es, htree, ⟨source, ref, id, -, -, -, rfl⟩, hx⟩ := h
  unfold Phase.step at hstep
  dsimp only at hstep
  cases hremove : (run.world n).disk.remove
      (Path.below (Build.checkout build.scratch) [Repository.gitName]) with
  | error e =>
    simp only [hremove] at hstep
    obtain ⟨-, -, rfl⟩ := Prod.mk.inj hstep
    exact accounts_failed hfor _ _
  | ok d =>
    simp only [hremove] at hstep
    obtain ⟨hworld, hrest⟩ := Prod.mk.inj hstep
    obtain ⟨-, rfl⟩ := Prod.mk.inj hrest
    obtain ⟨-, hholds⟩ := World.strip_keeps (run.isSound n).world hx hremove
    have hsound := (Node.isSound_dir_iff.mp htree.isSound).1
    rw [hsound.erase_insert] at hholds
    exact ⟨hfor.later (Nat.le_succ n), htells.later (Nat.le_succ n), tree,
      htree.later (Nat.le_succ n), hworld ▸ hholds⟩

theorem accounts_locate {build : Build} (hme : run.At n me (.locate build))
    (h : run.Accounts since n me branch path (.locate build))
    (hstep : (Phase.locate build).step site me (run.world n) b = (run.world (n + 1), b', p')) :
    run.Accounts since (n + 1) me branch path p' := by
  obtain ⟨hfor, htells, hheld⟩ := h
  have hfor' := hfor.later (Nat.le_succ n)
  have htells' := htells.later (Nat.le_succ n)
  unfold Phase.step at hstep
  dsimp only at hstep
  split at hstep
  · obtain ⟨-, -, rfl⟩ := Prod.mk.inj hstep
    exact accounts_failed hfor _ _
  next hfound =>
    obtain ⟨-, -, rfl⟩ := Prod.mk.inj hstep
    refine ⟨hfor', ?_⟩
    rintro _ ⟨⟩
    exact ⟨htells', n, Nat.le_succ n, me, build, rfl, hme, hheld, hfound⟩
  next source hfound =>
    obtain ⟨-, -, rfl⟩ := Prod.mk.inj hstep
    exact ⟨hfor', htells', n, Nat.le_succ n, hme, hheld, hfound⟩

theorem accounts_openWorkspace {build : Build} {source : Bytes}
    (h : run.Accounts since n me branch path (.openWorkspace build source))
    (hstep : (Phase.openWorkspace build source).step site me (run.world n) b =
      (run.world (n + 1), b', p')) : run.Accounts since (n + 1) me branch path p' := by
  obtain ⟨hfor, htells, i, hi, hfinds⟩ := h
  unfold Phase.step at hstep
  dsimp only at hstep
  split at hstep
  · obtain ⟨-, -, rfl⟩ := Prod.mk.inj hstep
    exact ⟨hfor.later (Nat.le_succ n), htells.later (Nat.le_succ n), i, Nat.le_succ_of_le hi, hfinds⟩
  · obtain ⟨-, -, rfl⟩ := Prod.mk.inj hstep
    exact accounts_failed hfor _ _

theorem accounts_openSource {build : Build} {route : Archive.Route}
    (hme : run.At n me (.openSource build route))
    (h : run.Accounts since n me branch path (.openSource build route))
    (hstep : (Phase.openSource build route).step site me (run.world n) b =
      (run.world (n + 1), b', p')) : run.Accounts since (n + 1) me branch path p' := by
  obtain ⟨hfor, htells, i, hi, hfinds⟩ := h
  unfold Phase.step at hstep
  dsimp only at hstep
  split at hstep
  · obtain ⟨-, -, rfl⟩ := Prod.mk.inj hstep
    exact ⟨hfor.later (Nat.le_succ n), htells.later (Nat.le_succ n), i, n, hi, Nat.le_succ n, hfinds,
      hme⟩
  · obtain ⟨-, -, rfl⟩ := Prod.mk.inj hstep
    exact accounts_failed hfor _ _

theorem accounts_copy {build : Build} {route : Archive.Route} {tasks : List Archive.Task}
    (h : run.Accounts since n me branch path (.copy build route tasks))
    (hstep : (Phase.copy build route tasks).step site me (run.world n) b =
      (run.world (n + 1), b', p')) : run.Accounts since (n + 1) me branch path p' := by
  obtain ⟨hfor, htells, hopens⟩ := h
  have hfor' := hfor.later (Nat.le_succ n)
  have htells' := htells.later (Nat.le_succ n)
  have hopens' := hopens.later (Nat.le_succ n)
  cases tasks with
  | nil =>
    obtain ⟨-, -, rfl⟩ := Prod.mk.inj hstep
    exact ⟨hfor', htells', route.source, hopens'⟩
  | cons task rest =>
    unfold Phase.step at hstep
    dsimp only at hstep
    split at hstep
    · obtain ⟨-, -, rfl⟩ := Prod.mk.inj hstep
      exact ⟨hfor', htells', hopens'⟩
    · obtain ⟨-, -, rfl⟩ := Prod.mk.inj hstep
      exact accounts_failed hfor _ _

theorem accounts_hash {build : Build} {workspace : Bytes}
    (hp : (Phase.hash build workspace).IsSound site seat (run.world n))
    (hme : run.At n me (.hash build workspace))
    (h : run.Accounts since n me branch path (.hash build workspace))
    (hstep : (Phase.hash build workspace).step site me (run.world n) b =
      (run.world (n + 1), b', p')) : run.Accounts since (n + 1) me branch path p' := by
  obtain ⟨hfor, htells, source, hopens⟩ := h
  unfold Phase.step at hstep
  dsimp only at hstep
  split at hstep
  next hash hhash =>
    obtain ⟨-, -, rfl⟩ := Prod.mk.inj hstep
    obtain ⟨x, hx, -, hisHash⟩ := (run.isSound n).world.isHash_of_ofTree hp.ready hhash
    exact ⟨hfor.later (Nat.le_succ n), htells.later (Nat.le_succ n), n, Nat.le_succ n, me, build, rfl,
      x, ⟨source, workspace, hopens, hme, hx⟩, hisHash⟩
  · obtain ⟨-, -, rfl⟩ := Prod.mk.inj hstep
    exact accounts_failed hfor _ _

theorem accounts_share {build : Build} {workspace : Bytes} {hash : ArchiveHash}
    (h : run.Accounts since n me branch path (.share build workspace hash))
    (hstep : (Phase.share build workspace hash).step site me (run.world n) b =
      (run.world (n + 1), b', p')) : run.Accounts since (n + 1) me branch path p' := by
  obtain ⟨hfor, htells, hyields⟩ := h
  unfold Phase.step at hstep
  dsimp only at hstep
  split at hstep
  · obtain ⟨-, -, rfl⟩ := Prod.mk.inj hstep
    exact ⟨hfor.later (Nat.le_succ n), htells.later (Nat.le_succ n), hyields.later (Nat.le_succ n)⟩
  · obtain ⟨-, -, rfl⟩ := Prod.mk.inj hstep
    exact accounts_failed hfor _ _

theorem accounts_publish {build : Build} {workspace : Bytes} {hash : ArchiveHash}
    (h : run.Accounts since n me branch path (.publish build workspace hash))
    (hstep : (Phase.publish build workspace hash).step site me (run.world n) b =
      (run.world (n + 1), b', p')) : run.Accounts since (n + 1) me branch path p' := by
  obtain ⟨hfor, htells, hyields⟩ := h
  unfold Phase.step at hstep
  dsimp only at hstep
  split at hstep
  · obtain ⟨-, -, rfl⟩ := Prod.mk.inj hstep
    refine ⟨hfor.later (Nat.le_succ n), ?_⟩
    rintro _ ⟨⟩
    exact ⟨htells.later (Nat.le_succ n), hyields.later (Nat.le_succ n)⟩
  · obtain ⟨-, -, rfl⟩ := Prod.mk.inj hstep
    exact accounts_failed hfor _ _

variable (me) in
theorem accounts_ending {job : Job} {result : Except Failure Outcome}
    (hfor : run.IsFor since n branch path job)
    (hresult : run.IsTrue since n branch job.key.path result) :
    (∀ paths, run.Accounts since (n + 1) me branch path (.discard job paths result)) ∧
      run.Accounts since (n + 1) me branch path (.remember job result) ∧
        run.Accounts since (n + 1) me branch path (.finish job result) ∧
          run.Accounts since (n + 1) me branch path (.release result) := by
  have hfor' := hfor.later (Nat.le_succ n)
  have hresult' := hresult.later (Nat.le_succ n)
  exact ⟨fun _ => ⟨hfor', hresult'⟩, ⟨hfor', hresult'⟩, ⟨hfor', hresult'⟩,
    fun _ _ => ⟨job.key.path, hfor'.2.1, hresult'⟩⟩

theorem Accounts.step (hroom : seat.HasRoom) (hsince : since ≤ n) {c : Nat} {p : Phase}
    (hme : (run.state n).checkout me = some (c, p)) (hb : run.Recalls n b)
    (h : run.Accounts since n me branch path p)
    (hstep : p.step site me (run.world n) b = (run.world (n + 1), b', p')) :
    run.Accounts since (n + 1) me branch path p' := by
  have hp := (run.isSound n).checkouts me c p hme
  cases p with
  | start => exact accounts_start h hstep
  | prepare => exact accounts_prepare h hstep
  | resolve => exact accounts_resolve hsince h hstep
  | lookUp => exact accounts_lookUp hb h hstep
  | askLock => exact accounts_askLock h hstep
  | acquire => exact accounts_acquire h hstep
  | lookAgain => exact accounts_lookAgain hb h hstep
  | makeDirs => exact accounts_makeDirs h hstep
  | openScratch => exact accounts_openScratch h hstep
  | clone => exact accounts_clone hsince hp h hstep
  | readHead => exact accounts_readHead hroom h hstep
  | strip => exact accounts_strip h hstep
  | locate => exact accounts_locate ⟨c, hme⟩ h hstep
  | openWorkspace => exact accounts_openWorkspace h hstep
  | openSource => exact accounts_openSource ⟨c, hme⟩ h hstep
  | copy => exact accounts_copy h hstep
  | hash => exact accounts_hash hp ⟨c, hme⟩ h hstep
  | share => exact accounts_share h hstep
  | publish => exact accounts_publish h hstep
  | discard job paths result =>
    have hend := accounts_ending me h.1 h.2
    cases paths with
    | nil =>
      obtain ⟨-, -, rfl⟩ := Prod.mk.inj hstep
      exact hend.2.1
    | cons scratch rest =>
      obtain ⟨-, -, rfl⟩ := Prod.mk.inj hstep
      exact hend.1 rest
  | remember job result =>
    have hend := accounts_ending me h.1 h.2
    cases result with
    | error f =>
      obtain ⟨-, -, rfl⟩ := Prod.mk.inj hstep
      exact hend.2.2.1
    | ok outcome =>
      obtain ⟨-, -, rfl⟩ := Prod.mk.inj hstep
      exact hend.2.2.1
  | finish job result =>
    obtain ⟨-, -, rfl⟩ := Prod.mk.inj hstep
    exact (accounts_ending me h.1 h.2).2.2.2
  | release result =>
    obtain ⟨-, -, rfl⟩ := Prod.mk.inj hstep
    exact IsAnswer.later h (Nat.le_succ n)
  | done result =>
    obtain ⟨-, -, rfl⟩ := Prod.mk.inj hstep
    exact IsAnswer.later h (Nat.le_succ n)

end step

/-- Who is about to build has told what for. -/
theorem Accounts.isFor {n since me : Nat} {branch path : String} {p : Phase} {job : Job}
    (h : run.Accounts since n me branch path p) (hjob : p.job? = some job) :
    run.IsFor since n branch path job := by
  cases p with
  | makeDirs | openScratch | clone =>
    obtain rfl := Option.some.inj hjob
    exact h
  | readHead | strip | locate | openWorkspace | openSource | copy | hash | share | publish =>
    obtain rfl := Option.some.inj hjob
    exact h.1
  | _ => cases hjob

theorem Accounts.failed {n since me : Nat} {branch path : String} {p p' : Phase} {f : Failure}
    (h : run.Accounts since n me branch path p) (hfail : p.failed? f = some p') :
    run.Accounts since (n + 1) me branch path p' := by
  unfold Phase.failed? at hfail
  split at hfail
  case h_4 =>
    obtain ⟨job, hjob, rfl⟩ := Option.map_eq_some_iff.mp hfail
    exact accounts_failed (h.isFor hjob) _ f
  all_goals
    obtain rfl := Option.some.inj hfail
    exact isAnswer_error f

section next

variable {n since me b : Nat} {branch path : String} {p : Phase}

/-- What the next step of a run does to a checkout: it goes on, it fails, it leaves a directory behind,
or it stays where it is and its scratch directories with it. -/
inductive Moves (run : Run site seat) (n me b : Nat) (p : Phase) : Phase → Prop
  | step {p' : Phase} {b' : Builder} (h : p.step site me (run.world n) ((run.state n).builder b) =
      (run.world (n + 1), b', p')) : Moves run n me b p p'
  | fail {p' : Phase} {f : Failure} (h : p.failed? f = some p') : Moves run n me b p p'
  | leave {job : Job} {scratch : Bytes} {rest : List Bytes} {result : Except Failure Outcome}
    (h : p = .discard job (scratch :: rest) result) : Moves run n me b p (.discard job rest result)
  | stay {owned : List Bytes} (hkeeps : (run.world n).Keeps site seat owned (run.world (n + 1)))
    (hown : ∀ path ∈ p.scratches, path ∉ owned) : Moves run n me b p p

theorem moves (run : Run site seat) (hme : (run.state n).checkout me = some (b, p)) :
    ∃ p', (run.state (n + 1)).checkout me = some (b, p') ∧ run.Moves n me b p p' := by
  have hs := run.isSound n
  have hrun := run.step n
  generalize hnext : run.state (n + 1) = s' at hrun
  have hworld : run.world (n + 1) = s'.world := congrArg System.world hnext
  -- While another checkout goes on, this one keeps what it has.
  have hother : ∀ {other c : Nat} {q q' : Phase} {w' : World} {c' : Builder},
      (run.state n).checkout other = some (c, q) → other ≠ me → run.world (n + 1) = w' →
      Phase.Advances site seat (run.world n) w' c' q q' → run.Moves n me b p p :=
    fun hq hne hw ha => .stay (hw ▸ ha.keeps) (hs.notMem_of_advances hq ha hme hne)
  cases hrun with
  | @launch other c branch' path' hnone =>
    have hne : me ≠ other := by
      rintro rfl
      rw [hnone] at hme
      cases hme
    have hkeeps : (run.world n).Keeps site seat [] (run.world (n + 1)) := hworld ▸ .refl hs.world
    exact ⟨p, by simpa [Function.update_of_ne hne] using hme, .stay hkeeps (by simp)⟩
  | @advance other c q q' w' c' hq hstep hprepare =>
    by_cases hne : other = me
    · subst hne
      obtain ⟨rfl, rfl⟩ := Prod.mk.inj (Option.some.inj (hme.symm.trans hq))
      exact ⟨q', by simp, .step (by rw [hworld]; exact hstep)⟩
    · exact ⟨p, by simpa [Function.update_of_ne (Ne.symm hne)] using hme, hother hq hne hworld
        (Phase.step_advances hs.world hs.archives (hs.builders c) (hs.checkouts other c q hq) hprepare
          hstep)⟩
  | @fail other c q q' d' f hq hfail hleft =>
    by_cases hne : other = me
    · subst hne
      obtain ⟨rfl, rfl⟩ := Prod.mk.inj (Option.some.inj (hme.symm.trans hq))
      exact ⟨q', by simp, .fail hfail⟩
    · exact ⟨p, by simpa [Function.update_of_ne (Ne.symm hne)] using hme, hother hq hne hworld
        (Phase.failed_advances hs.world (hs.builders c) (hs.checkouts other c q hq) hfail hleft)⟩
  | @leave other c job scratch rest result d' hq hleft =>
    by_cases hne : other = me
    · subst hne
      obtain ⟨rfl, rfl⟩ := Prod.mk.inj (Option.some.inj (hme.symm.trans hq))
      exact ⟨_, by simp, .leave rfl⟩
    · exact ⟨p, by simpa [Function.update_of_ne (Ne.symm hne)] using hme, hother hq hne hworld
        (Phase.left_advances hs.world (hs.builders c) (hs.checkouts other c _ hq) hleft)⟩
  | @outside w' hsame =>
    exact ⟨p, hme, .stay (World.Keeps.of_sameCache [] (hworld ▸ hsame)) (by simp)⟩

theorem start_of_none (run : Run site seat) (hnone : (run.state n).checkout me = none)
    (hme : (run.state (n + 1)).checkout me = some (b, p)) :
    ∃ branch path, p = .start branch path := by
  have hrun := run.step n
  generalize run.state (n + 1) = s' at hrun hme
  -- The checkout that a step is about was there before, unless the step launches it.
  have hold : ∀ {other c d : Nat} {q q' : Phase}, (run.state n).checkout other = some (c, q) →
      Function.update (run.state n).checkout other (some (d, q')) me ≠ some (b, p) := by
    intro other c d q q' hother hupdate
    rcases System.of_update hupdate with ⟨rfl, -⟩ | ⟨-, hme⟩
    · cases hnone.symm.trans hother
    · cases hnone.symm.trans hme
  cases hrun with
  | launch branch path =>
    rcases System.of_update hme with ⟨-, rfl⟩ | ⟨-, hme⟩
    · exact ⟨branch, path, rfl⟩
    · cases hnone.symm.trans hme
  | advance hother => exact absurd hme (hold hother)
  | fail _ hother => exact absurd hme (hold hother)
  | leave hother => exact absurd hme (hold hother)
  | outside => cases hnone.symm.trans hme

theorem Accounts.next (hroom : seat.HasRoom) (hsince : since ≤ n)
    (hall : ∀ b, run.Recalls n ((run.state n).builder b))
    (hme : (run.state n).checkout me = some (b, p)) (h : run.Accounts since n me branch path p) :
    ∃ p', (run.state (n + 1)).checkout me = some (b, p') ∧
      run.Accounts since (n + 1) me branch path p' := by
  obtain ⟨p', hp', hmoves⟩ := run.moves hme
  refine ⟨p', hp', ?_⟩
  cases hmoves with
  | step hstep => exact h.step hroom hsince hme (hall b) hstep
  | fail hfail => exact h.failed hfail
  | leave hp =>
    subst hp
    exact (accounts_ending me h.1 h.2).1 _
  | stay hkeeps hown => exact h.later (Nat.le_succ n) hkeeps hown

end next

/-- What is known of all checkouts and all memos at some time. -/
structure Known (run : Run site seat) (n : Nat) : Prop where
  memos : ∀ b, run.Recalls n ((run.state n).builder b)
  checkouts : ∀ me b p, (run.state n).checkout me = some (b, p) → ∃ since branch path,
    since ≤ n ∧ run.Accounts since n me branch path p

theorem Known.recalls_step {n me b : Nat} {p p' : Phase} {w' : World} {b' : Builder}
    (h : run.Known n) (hme : (run.state n).checkout me = some (b, p))
    (hstep : p.step site me (run.world n) ((run.state n).builder b) = (w', b', p')) :
    run.Recalls (n + 1) b' := by
  intro key archive hget
  have hold : ∀ key archive, ((run.state n).builder b).cache.get? key = some archive →
      run.Yields (n + 1) key archive := fun key archive hget =>
    (h.memos b key archive hget).later (Nat.le_succ n)
  rcases Phase.entries_step hstep with hsame | ⟨job, outcome, rfl, hinsert⟩
  · rw [Cache.get?, hsame] at hget
    exact hold key archive hget
  · by_cases hkey : key = ⟨outcome.commit, job.key.path⟩
    · obtain ⟨since, branch, path, -, -, htrue⟩ := h.checkouts me b _ hme
      rw [hinsert, hkey, Cache.get?, Cache.insert, assoc?_assocSet_self] at hget
      obtain rfl := Option.some.inj hget
      rw [hkey]
      exact (htrue outcome rfl).2.later (Nat.le_succ n)
    · rw [hinsert, Cache.get?, Cache.insert, assoc?_assocSet_ne hkey] at hget
      exact hold key archive hget

theorem Known.next {n : Nat} (hroom : seat.HasRoom) (h : run.Known n) : run.Known (n + 1) where
  memos c := by
    have hsame : run.Recalls (n + 1) ((run.state n).builder c) := fun key archive hget =>
      (h.memos c key archive hget).later (Nat.le_succ n)
    have hrun := run.step n
    generalize run.state (n + 1) = s' at hrun
    cases hrun with
    | @advance me b p p' w' b' hme hstep =>
      by_cases hc : c = b
      · subst hc
        simpa using h.recalls_step hme hstep
      · simpa [Function.update_of_ne hc] using hsame
    | _ => exact hsame
  checkouts me b p hme := by
    cases hold : (run.state n).checkout me with
    | some bp =>
      obtain ⟨c, q⟩ := bp
      obtain ⟨since, branch, path, hsince, haccounts⟩ := h.checkouts me c q hold
      obtain ⟨p', hp', hnext⟩ := haccounts.next hroom hsince h.memos hold
      obtain ⟨rfl, rfl⟩ := Prod.mk.inj (Option.some.inj (hp'.symm.trans hme))
      exact ⟨since, branch, path, Nat.le_succ_of_le hsince, hnext⟩
    | none =>
      obtain ⟨branch, path, rfl⟩ := run.start_of_none hold hme
      exact ⟨n + 1, branch, path, Nat.le_refl _, rfl, rfl⟩

/-- At all times all memos and all checkouts are accounted for. -/
theorem known (run : Run site seat) (hroom : seat.HasRoom) (n : Nat) : run.Known n := by
  induction n with
  | zero =>
    refine ⟨fun b key archive hget => ?_, fun me b p hme => ?_⟩
    · rw [run.forgotten] at hget
      cases hget
    · rw [run.initial.checkouts] at hme
      cases hme
  | succ n ih => exact ih.next hroom

theorem accounts_of_start (run : Run site seat) (hroom : seat.HasRoom) {since n me : Nat}
    {branch path : String} (hstart : run.At since me (.start branch path)) (hn : since ≤ n) :
    ∃ b p, (run.state n).checkout me = some (b, p) ∧ run.Accounts since n me branch path p := by
  induction n, hn using Nat.le_induction with
  | base =>
    obtain ⟨b, hme⟩ := hstart
    exact ⟨b, _, hme, rfl, rfl⟩
  | succ n hn ih =>
    obtain ⟨b, p, hme, h⟩ := ih
    obtain ⟨p', hp', hnext⟩ := h.next hroom hn (run.known hroom n).memos hme
    exact ⟨b, p', hp', hnext⟩

/-- What a checkout has answered is a commit that the branch was at since it was asked, and what
the path yields at this commit. -/
theorem isAnswer_of_done (run : Run site seat) (hroom : seat.HasRoom) {since n me : Nat}
    {branch path : String} {result : Except Failure Outcome}
    (hstart : run.At since me (.start branch path)) (hn : since ≤ n)
    (hdone : run.At n me (.done result)) : run.IsAnswer since n branch path result := by
  obtain ⟨b, p, hme, h⟩ := run.accounts_of_start hroom hstart hn
  obtain ⟨c, hdone⟩ := hdone
  obtain ⟨rfl, rfl⟩ := Prod.mk.inj (Option.some.inj (hme.symm.trans hdone))
  exact h

end Run

end Depot
