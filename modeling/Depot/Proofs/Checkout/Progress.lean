import Depot.Proofs.Checkout.Advance

/-!
Every step of a checkout, whichever it is, leaves the world sound, the others undisturbed, and the
checkout ready for its next step.
-/

namespace Depot

open Files Fingerprint

variable {site : Site} {seat : Seat} {w w' : World}

/-- A builder only remembers archives that are there. -/
def Builder.IsSound (seat : Seat) (w : World) (b : Builder) : Prop :=
  ∀ key h, b.cache.get? key = some (some h) → w.Holds seat h

theorem Builder.IsSound.keeps {owned : List Bytes} {b : Builder} (hb : b.IsSound seat w)
    (h : w.Keeps site seat owned w') : b.IsSound seat w' :=
  fun key hash hget => (hb key hash hget).keeps h

/-- A new entry of the memo is what a checkout delivers. -/
theorem Builder.IsSound.insert {b : Builder} (hb : b.IsSound seat w) {outcome : Outcome}
    (h : w.Delivers seat (.ok outcome)) (key : CheckoutKey) :
    ({ b with cache := b.cache.insert key outcome.archive } : Builder).IsSound seat w := by
  intro key' hash hget
  by_cases hkey : key' = key
  · subst hkey
    rw [Cache.get?, Cache.insert, assoc?_assocSet_self] at hget
    exact h outcome hash rfl (Option.some.inj hget)
  · rw [Cache.get?, Cache.insert, assoc?_assocSet_ne hkey] at hget
    exact hb key' hash hget

theorem Cache.entries_lockFor (c : Cache) (key : CheckoutKey) :
    (c.lockFor key).2.entries = c.entries := by
  rw [lockFor]
  cases assoc? key c.locks <;> rfl

namespace Phase

/-- What a step does to the world, to the memo of the builder, and to the checkout that takes it. -/
structure Advances (site : Site) (seat : Seat) (w w' : World) (b' : Builder) (p p' : Phase) :
    Prop where
  keeps : w.Keeps site seat (p.scratches ++ p'.scratches) w'
  builder : b'.IsSound seat w'
  phase : p'.IsSound site seat w'
  fresh : ∀ path ∈ p'.scratches, path ∈ p.scratches ∨ w.IsNew site path

namespace Advances

variable {owned : List Bytes} {b b' : Builder} {p p' : Phase}

theorem of_keeps (hp : p.IsSound site seat w) (hkeeps : w.Keeps site seat owned w')
    (howned : ∀ path ∈ owned, path ∈ p.scratches) (hb : b'.IsSound seat w')
    (hsub : ∀ path ∈ p'.scratches, path ∈ p.scratches) (hready : p'.IsReady site seat w')
    (hresult : ∀ result, p'.result? = some result → w'.Delivers seat result) :
    Advances site seat w w' b' p p' where
  keeps := hkeeps.mono fun path hpath => List.mem_append_left _ (howned path hpath)
  builder := hb
  phase := ⟨fun path hpath => (hp.made path (hsub path hpath)).imp fun _ hm => hm.keeps hkeeps,
    hready, hresult⟩
  fresh path hpath := .inl (hsub path hpath)

theorem of_look (hw : w.IsSound site seat) (hp : p.IsSound site seat w) (hb : b'.IsSound seat w)
    (hsub : ∀ path ∈ p'.scratches, path ∈ p.scratches) (hready : p'.IsReady site seat w)
    (hresult : ∀ result, p'.result? = some result → w.Delivers seat result) :
    Advances site seat w w b' p p' :=
  of_keeps hp (.refl hw) (List.forall_mem_nil _) hb hsub hready hresult

theorem of_failed (hp : p.IsSound site seat w) (hkeeps : w.Keeps site seat owned w')
    (howned : ∀ path ∈ owned, path ∈ p.scratches) (hb : b'.IsSound seat w') (job : Job)
    (f : Failure) : Advances site seat w w' b' p (discard job p.scratches (.error f)) :=
  of_keeps hp hkeeps howned hb (fun _ h => h) trivial (by simp [result?, World.delivers_error])

theorem of_new {path : Bytes} (hp : p.IsSound site seat w) (hb : b.IsSound seat w)
    (hkeeps : w.Keeps site seat [path] w') (hnew : w.IsNew site path)
    (hx : w'.Has site seat path fun x => ∃ mode, x = .dir mode [])
    (hp' : p'.scratches = path :: p.scratches) (hready : p'.IsReady site seat w')
    (hresult : p'.result? = none) : Advances site seat w w' b p p' where
  keeps := hkeeps.mono (by simp [hp'])
  builder := hb.keeps hkeeps
  phase := by
    refine ⟨fun other hother => ?_, hready, by simp [hresult]⟩
    rw [hp'] at hother
    rcases List.mem_cons.mp hother with rfl | hother
    · obtain ⟨σ, -, hm, -⟩ := hx
      exact ⟨σ, hm⟩
    · exact (hp.made other hother).imp fun _ hm => hm.keeps hkeeps
  fresh other hother := by
    rw [hp'] at hother
    rcases List.mem_cons.mp hother with rfl | hother
    · exact .inr hnew
    · exact .inl hother

end Advances

section steps

variable {me : Nat} {b b' : Builder} {job : Job} {build : Build} {p' : Phase}

theorem makeDirs_advances (hw : w.IsSound site seat) (hb : b.IsSound seat w)
    (hp : (makeDirs job).IsSound site seat w)
    (h : (makeDirs job).step site me w b = (w', b', p')) :
    Advances site seat w w' b' (makeDirs job) p' := by
  unfold step at h
  dsimp only at h
  cases hensure : Workspace.ensure w.disk site.dirs with
  | mk d r =>
  obtain ⟨hkeeps, hall⟩ := World.ensure_keeps [] hw (Site.dirs_eq site ▸ hensure)
  cases r with
  | error f =>
    simp only [hensure] at h
    obtain ⟨rfl, rfl, rfl⟩ := Prod.mk.inj h
    exact .of_failed hp hkeeps (List.forall_mem_nil _) (hb.keeps hkeeps) _ _
  | ok u =>
    simp only [hensure] at h
    obtain ⟨rfl, rfl, rfl⟩ := Prod.mk.inj h
    exact .of_keeps hp hkeeps (by simp) (hb.keeps hkeeps) (by simp [scratches])
      (fun a => hall rfl a (by cases a <;> simp)) (by simp [result?])

theorem openScratch_advances (hw : w.IsSound site seat) (hb : b.IsSound seat w)
    (hp : (openScratch job).IsSound site seat w)
    (h : (openScratch job).step site me w b = (w', b', p')) :
    Advances site seat w w' b' (openScratch job) p' := by
  unfold step at h
  dsimp only at h
  cases hmake : w.makeScratch site.cloneArea "clone-" with
  | mk w₁ r =>
  rcases World.makeScratch_cases hw hp.ready .clone hmake with
    ⟨e, rfl, rfl⟩ | ⟨path, rfl, hnew, hkeeps, hx⟩
  · simp only [hmake] at h
    obtain ⟨rfl, rfl, rfl⟩ := Prod.mk.inj h
    exact .of_failed hp (.refl hw) (List.forall_mem_nil _) hb _ _
  · simp only [hmake] at h
    obtain ⟨rfl, rfl, rfl⟩ := Prod.mk.inj h
    exact .of_new hp hb hkeeps hnew hx rfl hx rfl

theorem clone_advances {scratch : Bytes} (hw : w.IsSound site seat) (hb : b.IsSound seat w)
    (hp : (clone job scratch).IsSound site seat w)
    (h : (clone job scratch).step site me w b = (w', b', p')) :
    Advances site seat w w' b' (clone job scratch) p' := by
  unfold step at h
  dsimp only at h
  cases hclone : History.clone site.repository job.branch (Build.checkout scratch) w with
  | mk w₁ r =>
  obtain ⟨hkeeps, hx⟩ := World.clone_keeps hw hp.ready hclone
  cases r with
  | error f =>
    simp only [hclone] at h
    obtain ⟨rfl, rfl, rfl⟩ := Prod.mk.inj h
    exact .of_failed hp hkeeps (by simp [scratches]) (hb.keeps hkeeps) _ _
  | ok u =>
    simp only [hclone] at h
    obtain ⟨rfl, rfl, rfl⟩ := Prod.mk.inj h
    obtain ⟨-, -, es, -, σ, x, hm, hget, hcheckout⟩ := hx rfl
    exact .of_keeps hp hkeeps (by simp [scratches]) (hb.keeps hkeeps) (by simp [scratches])
      ⟨σ, x, hm, hget, 0o755, es, hcheckout⟩ (by simp [result?])

theorem readHead_advances {scratch : Bytes} (hw : w.IsSound site seat) (hb : b.IsSound seat w)
    (hp : (readHead job scratch).IsSound site seat w)
    (h : (readHead job scratch).step site me w b = (w', b', p')) :
    Advances site seat w w' b' (readHead job scratch) p' := by
  unfold step at h
  dsimp only at h
  cases hhead : History.head (Build.checkout scratch) w with
  | mk w₁ r =>
  obtain rfl : w₁ = w := by
    rw [← History.head_fst hw.undisturbed, hhead]
  cases r with
  | error f =>
    simp only [hhead] at h
    obtain ⟨rfl, rfl, rfl⟩ := Prod.mk.inj h
    exact .of_failed hp (.refl hw) (List.forall_mem_nil _) hb _ _
  | ok commit =>
    simp only [hhead] at h
    obtain ⟨rfl, rfl, rfl⟩ := Prod.mk.inj h
    exact .of_look hw hp hb (by simp [scratches]) hp.ready (by simp [result?])

theorem strip_advances (hw : w.IsSound site seat) (hb : b.IsSound seat w)
    (hp : (strip build).IsSound site seat w) (h : (strip build).step site me w b = (w', b', p')) :
    Advances site seat w w' b' (strip build) p' := by
  unfold step at h
  dsimp only at h
  cases hremove : w.disk.remove (Path.below (Build.checkout build.scratch) [Repository.gitName]) with
  | error e =>
    simp only [hremove] at h
    obtain ⟨rfl, rfl, rfl⟩ := Prod.mk.inj h
    exact .of_failed hp (.refl hw) (List.forall_mem_nil _) hb _ _
  | ok d =>
    simp only [hremove] at h
    obtain ⟨rfl, rfl, rfl⟩ := Prod.mk.inj h
    obtain ⟨σ, x, hm, hget, mode, es, hcheckout⟩ := hp.ready
    obtain ⟨hkeeps, -⟩ := World.strip_keeps hw ⟨σ, x, hm, hget, hcheckout⟩ hremove
    exact .of_keeps hp hkeeps (by simp [scratches]) (hb.keeps hkeeps) (by simp [scratches]) trivial
      (by simp [result?])

theorem locate_advances (hw : w.IsSound site seat) (hb : b.IsSound seat w)
    (hp : (locate build).IsSound site seat w) (h : (locate build).step site me w b = (w', b', p')) :
    Advances site seat w w' b' (locate build) p' := by
  unfold step at h
  dsimp only at h
  cases hsub : Workspace.subtree? w.disk (Build.checkout build.scratch) build.job.key.path with
  | error f =>
    simp only [hsub] at h
    obtain ⟨rfl, rfl, rfl⟩ := Prod.mk.inj h
    exact .of_failed hp (.refl hw) (List.forall_mem_nil _) hb _ _
  | ok source? =>
    cases source? with
    | none =>
      simp only [hsub] at h
      obtain ⟨rfl, rfl, rfl⟩ := Prod.mk.inj h
      exact .of_look hw hp hb (by simp [scratches]) trivial
        (by simp [result?, World.delivers_none])
    | some source =>
      simp only [hsub] at h
      obtain ⟨rfl, rfl, rfl⟩ := Prod.mk.inj h
      exact .of_look hw hp hb (by simp [scratches]) trivial (by simp [result?])

theorem openWorkspace_advances {source : Bytes} (hw : w.IsSound site seat) (hb : b.IsSound seat w)
    (hp : (openWorkspace build source).IsSound site seat w)
    (h : (openWorkspace build source).step site me w b = (w', b', p')) :
    Advances site seat w w' b' (openWorkspace build source) p' := by
  unfold step at h
  dsimp only at h
  obtain ⟨σ, hm⟩ := hp.made build.scratch (by simp [scratches])
  cases hmake : w.makeScratch site.workArea "archive-" with
  | mk w₁ r =>
  rcases World.makeScratch_cases hw hm.areas .work hmake with
    ⟨e, rfl, rfl⟩ | ⟨path, rfl, hnew, hkeeps, hx⟩
  · simp only [hmake] at h
    obtain ⟨rfl, rfl, rfl⟩ := Prod.mk.inj h
    exact .of_failed hp (.refl hw) (List.forall_mem_nil _) hb _ _
  · simp only [hmake] at h
    obtain ⟨rfl, rfl, rfl⟩ := Prod.mk.inj h
    exact .of_new hp hb hkeeps hnew hx rfl hx rfl

theorem openSource_advances {route : Archive.Route} (hw : w.IsSound site seat)
    (hb : b.IsSound seat w) (hp : (openSource build route).IsSound site seat w)
    (h : (openSource build route).step site me w b = (w', b', p')) :
    Advances site seat w w' b' (openSource build route) p' := by
  unfold step at h
  dsimp only at h
  cases htasks : Archive.Copying.tasks w.disk route.source with
  | error f =>
    simp only [htasks] at h
    obtain ⟨rfl, rfl, rfl⟩ := Prod.mk.inj h
    exact .of_failed hp (.refl hw) (List.forall_mem_nil _) hb _ _
  | ok tasks =>
    simp only [htasks] at h
    obtain ⟨rfl, rfl, rfl⟩ := Prod.mk.inj h
    obtain ⟨σ, _, hm, hget, mode, rfl⟩ := hp.ready
    have hleads := hw.seat.leads_scratch hm.length ⟨mode, [], hget⟩
    rw [← hm.path] at hleads
    exact .of_look hw hp hb (by simp [scratches]) ⟨σ, hm, .of_tasks hw.tree hleads hget htasks⟩
      (by simp [result?])

theorem copy_advances {route : Archive.Route} {tasks : List Archive.Task} (hw : w.IsSound site seat)
    (hb : b.IsSound seat w) (hp : (copy build route tasks).IsSound site seat w)
    (h : (copy build route tasks).step site me w b = (w', b', p')) :
    Advances site seat w w' b' (copy build route tasks) p' := by
  obtain ⟨σ, hm, hu⟩ := hp.ready
  cases tasks with
  | nil =>
    obtain ⟨rfl, rfl, rfl⟩ := Prod.mk.inj h
    obtain ⟨mode, es, hx⟩ := hu.leads.dir
    exact .of_look hw hp hb (by simp [scratches]) ⟨σ, _, hm, hx, rfl⟩ (by simp [result?])
  | cons task rest =>
    unfold step at h
    dsimp only at h
    cases htake : Archive.Copying.take ⟨w.disk, {}⟩ route task with
    | mk c r =>
    obtain ⟨hkeeps, hunder⟩ := World.take_keeps hw hm hu htake
    cases r with
    | error f =>
      simp only [htake] at h
      obtain ⟨rfl, rfl, rfl⟩ := Prod.mk.inj h
      exact .of_failed hp hkeeps (by simp [scratches]) (hb.keeps hkeeps) _ _
    | ok more =>
      simp only [htake] at h
      obtain ⟨rfl, rfl, rfl⟩ := Prod.mk.inj h
      exact .of_keeps hp hkeeps (by simp [scratches]) (hb.keeps hkeeps) (by simp [scratches])
        ⟨σ, hm.keeps hkeeps, hunder more rfl⟩ (by simp [result?])

theorem hash_advances {workspace : Bytes} (hw : w.IsSound site seat) (hb : b.IsSound seat w)
    (hp : (hash build workspace).IsSound site seat w)
    (h : (hash build workspace).step site me w b = (w', b', p')) :
    Advances site seat w w' b' (hash build workspace) p' := by
  unfold step at h
  dsimp only at h
  cases hhash : ofTree w.disk workspace with
  | error f =>
    simp only [hhash] at h
    obtain ⟨rfl, rfl, rfl⟩ := Prod.mk.inj h
    exact .of_failed hp (.refl hw) (List.forall_mem_nil _) hb _ _
  | ok hash =>
    simp only [hhash] at h
    obtain ⟨rfl, rfl, rfl⟩ := Prod.mk.inj h
    obtain ⟨x, ⟨σ, _, hm, hget, rfl⟩, hdir, hx⟩ := hw.isHash_of_ofTree hp.ready hhash
    exact .of_look hw hp hb (by simp [scratches]) ⟨σ, _, hm, hget, hdir, hx⟩ (by simp [result?])

theorem share_advances {workspace : Bytes} {hash : ArchiveHash} (hw : w.IsSound site seat)
    (hb : b.IsSound seat w) (hp : (share build workspace hash).IsSound site seat w)
    (h : (share build workspace hash).step site me w b = (w', b', p')) :
    Advances site seat w w' b' (share build workspace hash) p' := by
  unfold step at h
  dsimp only at h
  rcases World.setMode_cases hw 0o755 hp.ready with ⟨e, hset⟩ | ⟨d, hset, hkeeps, hx⟩
  · simp only [hset] at h
    obtain ⟨rfl, rfl, rfl⟩ := Prod.mk.inj h
    exact .of_failed hp (.refl hw) (List.forall_mem_nil _) hb _ _
  · simp only [hset] at h
    obtain ⟨rfl, rfl, rfl⟩ := Prod.mk.inj h
    exact .of_keeps hp hkeeps (by simp [scratches]) (hb.keeps hkeeps) (by simp [scratches]) hx
      (by simp [result?])

theorem publish_advances {workspace : Bytes} {hash : ArchiveHash} (hw : w.IsSound site seat)
    (harchives : ∀ n x, w.disk.root.get? (seat.archive n) = some x → IsArchive n x)
    (hb : b.IsSound seat w) (hp : (publish build workspace hash).IsSound site seat w)
    (h : (publish build workspace hash).step site me w b = (w', b', p')) :
    Advances site seat w w' b' (publish build workspace hash) p' := by
  unfold step at h
  dsimp only at h
  cases hpublish : Workspace.publish w.disk workspace (site.archivePath hash) with
  | mk d r =>
  obtain ⟨hkeeps, hholds⟩ := World.publish_keeps hw harchives hp.ready hpublish
  cases r with
  | error f =>
    simp only [hpublish] at h
    obtain ⟨rfl, rfl, rfl⟩ := Prod.mk.inj h
    exact .of_failed hp hkeeps (by simp [scratches]) (hb.keeps hkeeps) _ _
  | ok u =>
    simp only [hpublish] at h
    obtain ⟨rfl, rfl, rfl⟩ := Prod.mk.inj h
    refine .of_keeps hp hkeeps (by simp [scratches]) (hb.keeps hkeeps) (by simp [scratches]) trivial ?_
    rintro _ ⟨⟩ outcome hash' ho hh
    obtain rfl := Except.ok.inj ho
    obtain rfl := Option.some.inj hh
    exact hholds rfl

theorem discard_advances {dropped : List Bytes} {result : Except Failure Outcome}
    (hw : w.IsSound site seat) (hb : b.IsSound seat w)
    (hp : (discard job dropped result).IsSound site seat w)
    (h : (discard job dropped result).step site me w b = (w', b', p')) :
    Advances site seat w w' b' (discard job dropped result) p' := by
  have hresult := hp.result result rfl
  cases dropped with
  | nil =>
    obtain ⟨rfl, rfl, rfl⟩ := Prod.mk.inj h
    exact .of_look hw hp hb (by simp [scratches]) trivial (by simpa [result?] using hresult)
  | cons scratch rest =>
    obtain ⟨rfl, rfl, rfl⟩ := Prod.mk.inj h
    obtain ⟨σ, hm⟩ := hp.made scratch (by simp [scratches])
    have hkeeps := World.dropScratch_keeps hw hm
    exact .of_keeps hp hkeeps (by simp [scratches]) (hb.keeps hkeeps)
      (fun path hpath => List.mem_cons_of_mem _ hpath) trivial
      (by simpa [result?] using hresult.keeps hkeeps)

theorem remember_advances {result : Except Failure Outcome} (hw : w.IsSound site seat)
    (hb : b.IsSound seat w) (hp : (remember job result).IsSound site seat w)
    (h : (remember job result).step site me w b = (w', b', p')) :
    Advances site seat w w' b' (remember job result) p' := by
  have hresult := hp.result result rfl
  cases result with
  | error f =>
    obtain ⟨rfl, rfl, rfl⟩ := Prod.mk.inj h
    exact .of_look hw hp hb (by simp [scratches]) trivial (by simpa [result?] using hresult)
  | ok outcome =>
    obtain ⟨rfl, rfl, rfl⟩ := Prod.mk.inj h
    exact .of_look hw hp (hb.insert hresult _) (by simp [scratches]) trivial
      (by simpa [result?] using hresult)

theorem prepare_advances {branch path : String} (hw : w.IsSound site seat) (hb : b.IsSound seat w)
    (hp : (prepare branch path).IsSound site seat w) (hsame : w.SameCache site seat w')
    (h : (prepare branch path).step site me w b = (w', b', p')) :
    Advances site seat w w' b' (prepare branch path) p' := by
  have hkeeps := World.Keeps.of_sameCache [] hsame
  unfold step at h
  dsimp only at h
  by_cases hready : b.isReady = true
  · rw [if_pos hready] at h
    obtain ⟨rfl, rfl, rfl⟩ := Prod.mk.inj h
    exact .of_look hw hp hb (by simp [scratches]) trivial (by simp [result?])
  · rw [if_neg hready] at h
    cases hprepare : History.prepare site.repository w with
    | mk w₁ r =>
    cases r with
    | error f =>
      simp only [hprepare] at h
      obtain ⟨rfl, rfl, rfl⟩ := Prod.mk.inj h
      exact .of_keeps hp hkeeps (List.forall_mem_nil _) (hb.keeps hkeeps) (by simp [scratches])
        trivial (by simp [result?, World.delivers_error])
    | ok u =>
      simp only [hprepare] at h
      obtain ⟨rfl, rfl, rfl⟩ := Prod.mk.inj h
      exact .of_keeps hp hkeeps (List.forall_mem_nil _) (hb.keeps hkeeps) (by simp [scratches])
        trivial (by simp [result?])

theorem resolve_advances {branch path : String} (hw : w.IsSound site seat) (hb : b.IsSound seat w)
    (hp : (resolve branch path).IsSound site seat w)
    (h : (resolve branch path).step site me w b = (w', b', p')) :
    Advances site seat w w' b' (resolve branch path) p' := by
  unfold step at h
  dsimp only at h
  cases htip : History.tip site.repository branch w with
  | mk w₁ r =>
  obtain rfl : w₁ = w := by
    rw [← History.tip_fst hw.undisturbed, htip]
  cases r with
  | error f =>
    simp only [htip] at h
    obtain ⟨rfl, rfl, rfl⟩ := Prod.mk.inj h
    exact .of_look hw hp hb (by simp [scratches]) trivial (by simp [result?, World.delivers_error])
  | ok commit =>
    simp only [htip] at h
    obtain ⟨rfl, rfl, rfl⟩ := Prod.mk.inj h
    exact .of_look hw hp hb (by simp [scratches]) trivial (by simp [result?])

theorem delivers_of_get? {key : CheckoutKey} {archive : Option ArchiveHash} (hb : b.IsSound seat w)
    (h : b.cache.get? key = some archive) : w.Delivers seat (.ok ⟨key.commit, archive⟩) := by
  rintro _ hash ⟨⟩ rfl
  exact hb key hash h

theorem lookUp_advances {branch : String} {key : CheckoutKey} (hw : w.IsSound site seat)
    (hb : b.IsSound seat w) (hp : (lookUp branch key).IsSound site seat w)
    (h : (lookUp branch key).step site me w b = (w', b', p')) :
    Advances site seat w w' b' (lookUp branch key) p' := by
  unfold step at h
  dsimp only at h
  cases hget : b.cache.get? key with
  | none =>
    simp only [hget] at h
    obtain ⟨rfl, rfl, rfl⟩ := Prod.mk.inj h
    exact .of_look hw hp hb (by simp [scratches]) trivial (by simp [result?])
  | some archive =>
    simp only [hget] at h
    obtain ⟨rfl, rfl, rfl⟩ := Prod.mk.inj h
    exact .of_look hw hp hb (by simp [scratches]) trivial
      (by simpa [result?] using delivers_of_get? hb hget)

theorem lookAgain_advances (hw : w.IsSound site seat) (hb : b.IsSound seat w)
    (hp : (lookAgain job).IsSound site seat w)
    (h : (lookAgain job).step site me w b = (w', b', p')) :
    Advances site seat w w' b' (lookAgain job) p' := by
  unfold step at h
  dsimp only at h
  cases hget : b.cache.get? job.key with
  | none =>
    simp only [hget] at h
    obtain ⟨rfl, rfl, rfl⟩ := Prod.mk.inj h
    exact .of_look hw hp hb (by simp [scratches]) trivial (by simp [result?])
  | some archive =>
    simp only [hget] at h
    obtain ⟨rfl, rfl, rfl⟩ := Prod.mk.inj h
    exact .of_look hw hp hb (by simp [scratches]) trivial
      (by simpa [result?] using delivers_of_get? hb hget)

theorem acquire_advances (hw : w.IsSound site seat) (hb : b.IsSound seat w)
    (hp : (acquire job).IsSound site seat w)
    (h : (acquire job).step site me w b = (w', b', p')) :
    Advances site seat w w' b' (acquire job) p' := by
  unfold step at h
  dsimp only at h
  cases hheld : b.held.acquire? job.lock me with
  | none =>
    simp only [hheld] at h
    obtain ⟨rfl, rfl, rfl⟩ := Prod.mk.inj h
    exact .of_look hw hp hb (by simp [scratches]) trivial (by simp [result?])
  | some held =>
    simp only [hheld] at h
    obtain ⟨rfl, rfl, rfl⟩ := Prod.mk.inj h
    exact .of_look hw hp hb (by simp [scratches]) trivial (by simp [result?])

end steps

theorem failed_advances {d' : Disk} {b : Builder} {p p' : Phase} {f : Failure}
    (hw : w.IsSound site seat) (hb : b.IsSound seat w) (hp : p.IsSound site seat w)
    (h : p.failed? f = some p') (hleft : w.disk.ChangedIn site seat p.scratches d') :
    Advances site seat w { w with disk := d' } b p p' := by
  have hkeeps := World.Keeps.of_changedIn hw hleft
  have hcases : p' = done (.error f) ∨ ∃ job, p' = discard job p.scratches (.error f) := by
    unfold failed? at h
    split at h
    · exact .inl (Option.some.inj h).symm
    · exact .inl (Option.some.inj h).symm
    · exact .inl (Option.some.inj h).symm
    · obtain ⟨job, -, rfl⟩ := Option.map_eq_some_iff.mp h
      exact .inr ⟨job, rfl⟩
  rcases hcases with rfl | ⟨job, rfl⟩
  · exact .of_keeps hp hkeeps (fun _ h => h) (hb.keeps hkeeps) (by simp [scratches]) trivial
      (by simp [result?, World.delivers_error])
  · exact .of_failed hp hkeeps (fun _ h => h) (hb.keeps hkeeps) job f

theorem left_advances {d' : Disk} {b : Builder} {job : Job} {scratch : Bytes} {rest : List Bytes}
    {result : Except Failure Outcome} (hw : w.IsSound site seat) (hb : b.IsSound seat w)
    (hp : (discard job (scratch :: rest) result).IsSound site seat w)
    (hleft : w.disk.ChangedIn site seat [scratch] d') :
    Advances site seat w { w with disk := d' } b (discard job (scratch :: rest) result)
      (discard job rest result) := by
  have hkeeps := World.Keeps.of_changedIn hw hleft
  exact .of_keeps hp hkeeps (by simp [scratches]) (hb.keeps hkeeps)
    (fun path hpath => List.mem_cons_of_mem _ hpath) trivial
    (by simpa [result?] using (hp.result result rfl).keeps hkeeps)

theorem step_advances {me : Nat} {b b' : Builder} {p p' : Phase} (hw : w.IsSound site seat)
    (harchives : ∀ n x, w.disk.root.get? (seat.archive n) = some x → IsArchive n x)
    (hb : b.IsSound seat w) (hp : p.IsSound site seat w)
    (hprepare : ∀ branch path, p = .prepare branch path → w.SameCache site seat w')
    (h : p.step site me w b = (w', b', p')) : Advances site seat w w' b' p p' := by
  cases p with
  | start branch path =>
    unfold step at h
    dsimp only at h
    cases hnormal : Path.normalize path with
    | error f =>
      simp only [hnormal] at h
      obtain ⟨rfl, rfl, rfl⟩ := Prod.mk.inj h
      exact .of_look hw hp hb (by simp [scratches]) trivial (by simp [result?, World.delivers_error])
    | ok normal =>
      simp only [hnormal] at h
      obtain ⟨rfl, rfl, rfl⟩ := Prod.mk.inj h
      exact .of_look hw hp hb (by simp [scratches]) trivial (by simp [result?])
  | prepare branch path => exact prepare_advances hw hb hp (hprepare branch path rfl) h
  | resolve => exact resolve_advances hw hb hp h
  | lookUp => exact lookUp_advances hw hb hp h
  | askLock branch key =>
    obtain ⟨rfl, rfl, rfl⟩ := Prod.mk.inj h
    have hb' : ({ b with cache := (b.cache.lockFor key).2 } : Builder).IsSound seat w := by
      intro key' hash hget
      rw [Cache.get?, Cache.entries_lockFor] at hget
      exact hb key' hash hget
    exact .of_look hw hp hb' (by simp [scratches]) trivial (by simp [result?])
  | acquire => exact acquire_advances hw hb hp h
  | lookAgain => exact lookAgain_advances hw hb hp h
  | makeDirs => exact makeDirs_advances hw hb hp h
  | openScratch => exact openScratch_advances hw hb hp h
  | clone => exact clone_advances hw hb hp h
  | readHead => exact readHead_advances hw hb hp h
  | strip => exact strip_advances hw hb hp h
  | locate => exact locate_advances hw hb hp h
  | openWorkspace => exact openWorkspace_advances hw hb hp h
  | openSource => exact openSource_advances hw hb hp h
  | copy => exact copy_advances hw hb hp h
  | hash => exact hash_advances hw hb hp h
  | share => exact share_advances hw hb hp h
  | publish => exact publish_advances hw harchives hb hp h
  | discard => exact discard_advances hw hb hp h
  | remember => exact remember_advances hw hb hp h
  | finish job result =>
    obtain ⟨rfl, rfl, rfl⟩ := Prod.mk.inj h
    exact .of_look hw hp hb (by simp [scratches]) trivial
      (by simpa [result?] using hp.result result rfl)
  | release result =>
    obtain ⟨rfl, rfl, rfl⟩ := Prod.mk.inj h
    exact .of_look hw hp hb (by simp [scratches]) trivial
      (by simpa [result?] using hp.result result rfl)
  | done result =>
    obtain ⟨rfl, rfl, rfl⟩ := Prod.mk.inj h
    exact .of_look hw hp hb (by simp [scratches]) trivial
      (by simpa [result?] using hp.result result rfl)

end Phase

end Depot
