import Depot.Proofs.Checkout.Abreast
import Depot.Proofs.Checkout.Completion

/-!
Two builds of one path in one tree. Whatever else the worlds hold in which they run, and whichever
scratch directories they use, they come to the same: one archive, no archive, or one failure.
-/

namespace Depot

open Files Fingerprint

namespace World

variable {site : Site} {seat : Seat} {w : World}

/-- A scratch directory is made where nothing is, unless its path is too long. -/
theorem makeScratch_eq (hw : w.IsSound site seat) (purpose : Purpose)
    (hdir : w.disk.root.IsDirAt (seat.area purpose.area)) {σ : Scratch}
    (hσ : σ = ⟨purpose, w.scratches + 1⟩) (hfree : w.disk.root.get? (seat.scratch σ) = none) :
    w.makeScratch (site.areaPath purpose.area) purpose.word =
      if Disk.IsShort (σ.path site w.disk.cwd) (seat.names ++ [purpose.area.name] ++ [σ.name]) then
        ({ w with disk := w.disk.put (seat.scratch σ) (.dir 0o700 []), scratches := w.scratches + 1 },
          .ok (σ.path site w.disk.cwd))
      else (w, .error .nameTooLong) := by
  subst hσ
  obtain ⟨base, hl, he⟩ := hw.seat.extends_scratch ⟨purpose, w.scratches + 1⟩
  rw [← Seat.home_append_names] at hdir
  have hplace : seat.home ++ (seat.names ++ [purpose.area.name]) ++
      [(⟨purpose, w.scratches + 1⟩ : Scratch).name] = seat.scratch ⟨purpose, w.scratches + 1⟩ := by
    rw [Seat.home_append_names]
    rfl
  have hmake := hl.arrives.makeDir_free he.spells hdir (hplace ▸ hfree) 0o700
  rw [hplace] at hmake
  unfold makeScratch
  dsimp only
  by_cases hshort : Disk.IsShort ((⟨purpose, w.scratches + 1⟩ : Scratch).path site w.disk.cwd)
      (seat.names ++ [purpose.area.name] ++ [(⟨purpose, w.scratches + 1⟩ : Scratch).name])
  · rw [if_pos hshort] at hmake ⊢
    split
    · next hdisk =>
      cases hdisk.symm.trans hmake
      rfl
    · next herror => cases herror.symm.trans hmake
  · rw [if_neg hshort] at hmake ⊢
    split
    · next hdisk => cases hdisk.symm.trans hmake
    · next herror =>
      cases herror.symm.trans hmake
      rfl

/-- What a place of an archive holds when an archive with these entries has got there: one that is no
empty directory is kept. -/
def settled (made : Entries) : Option Node → Node
  | some (.dir mode (e :: es)) => .dir mode (e :: es)
  | _ => .dir 0o755 made

/-- An archive is moved to its place, or one is there, unless the path of the place is too long. -/
theorem publish_eq (hw : w.IsSound site seat) {workspace : Bytes} {σ : Scratch} {h : ArchiveHash}
    {mode : Nat} {made : Entries} (hm : w.Made site seat workspace σ)
    (hlimit : workspace.length ≤ Disk.pathLimit)
    (hget : w.disk.root.get? (seat.scratch σ) = some (.dir mode made))
    (harchives : ∀ x, w.disk.root.get? (seat.archive h.name) = some x → x.isDir = true)
    (hname : IsName h.name) :
    Workspace.publish w.disk workspace (site.archivePath h) =
      if Disk.IsShort (site.archivePath h) (seat.names ++ [Area.archives.name] ++ [h.name]) then
        (match w.disk.root.get? (seat.archive h.name) with
          | some (.dir _ (_ :: _)) => w.disk
          | _ => (w.disk.alter (seat.scratch σ) fun _ => none).put (seat.archive h.name) (.dir mode made),
          .ok ())
      else (w.disk, .error (.ofErrno ("publishing " ++ Utf8.toStringLossy workspace ++ " to " ++
        Utf8.toStringLossy (site.archivePath h)) .nameTooLong)) := by
  obtain ⟨base, hl, he⟩ := hw.seat.extends_scratch σ
  obtain ⟨base', hl', he'⟩ := hw.seat.extends_area .archives
  have hdir := hm.areas σ.purpose.area
  have hdir' := hm.areas .archives
  rw [← Seat.home_append_names] at hdir hdir'
  have hspells := (he'.join hname).spells
  rw [← Site.archivePath_eq] at hspells
  have hlink : ∀ target, w.disk.root.get? (seat.home ++ (seat.names ++ [Area.archives.name]) ++ [h.name]) ≠
      some (.link target) := by
    intro target hx
    rw [Seat.home_append_names] at hx
    cases harchives _ hx
  have hsource := hl.find_names he.spells hm.length (hm.path ▸ hlimit) hdir
  have hfind := hl'.arrives.find_entry hspells hdir' false nofun
  have hfollow := hl'.arrives.find_entry hspells hdir' true fun _ => hlink
  rw [Seat.home_append_names] at hsource hfind hfollow
  change w.disk.find false (σ.path site w.disk.cwd) =
    .ok ⟨seat.scratch σ, w.disk.root.get? (seat.scratch σ)⟩ at hsource
  change w.disk.find false (site.archivePath h) = if _ then .ok ⟨seat.archive h.name,
    w.disk.root.get? (seat.archive h.name)⟩ else _ at hfind
  change w.disk.find true (site.archivePath h) = if _ then .ok ⟨seat.archive h.name,
    w.disk.root.get? (seat.archive h.name)⟩ else _ at hfollow
  rw [← hm.path, hget] at hsource
  have hapart : ¬ seat.scratch σ <+: seat.archive h.name := by
    have hnot : ¬ seat.scratch σ <+: seat.archive h.name ++ [] := Seat.scratch_not_above_archive
    rwa [List.append_nil] at hnot
  rw [Workspace.publish, Disk.rename, hsource, hfind]
  simp only [bind, Except.bind, Found.existing]
  by_cases hshort : Disk.IsShort (site.archivePath h) (seat.names ++ [Area.archives.name] ++ [h.name])
  · simp only [if_pos hshort] at hfollow ⊢
    rw [if_neg fun hinside => hapart hinside.1]
    cases hx : w.disk.root.get? (seat.archive h.name) with
    | none => rfl
    | some x =>
      cases x with
      | dir mode' es =>
        cases es with
        | nil => rfl
        | cons e es =>
          have hexists : w.disk.doesExist (site.archivePath h) = true := by
            rw [Disk.doesExist, Disk.stat, Disk.locate, hfollow, hx]
            rfl
          simp only [throw, throwThe, MonadExceptOf.throw]
          rw [if_pos hexists]
      | _ => cases harchives _ hx
  · simp only [if_neg hshort] at hfollow ⊢
    have hexists : w.disk.doesExist (site.archivePath h) = false := by
      rw [Disk.doesExist, Disk.stat, Disk.locate, hfollow]
      rfl
    rw [if_neg (by simp [hexists])]

/-- An archive that is moved to its place settles there, and no other archive changes. -/
theorem publish_settles (hw : w.IsSound site seat) {workspace : Bytes} {σ : Scratch} {h : ArchiveHash}
    {made : Entries} (hm : w.Made site seat workspace σ)
    (hget : w.disk.root.get? (seat.scratch σ) = some (.dir 0o755 made))
    (harchives : ∀ x, w.disk.root.get? (seat.archive h.name) = some x → x.isDir = true)
    (hname : IsName h.name) {d' : Disk}
    (hd' : d' = match w.disk.root.get? (seat.archive h.name) with
      | some (.dir _ (_ :: _)) => w.disk
      | _ => (w.disk.alter (seat.scratch σ) fun _ => none).put (seat.archive h.name) (.dir 0o755 made)) :
    d'.root.get? (seat.archive h.name) =
        some (settled made (w.disk.root.get? (seat.archive h.name))) ∧
      ∀ n, n ≠ h.name → d'.root.get? (seat.archive n) = w.disk.root.get? (seat.archive n) := by
  have ht := hw.touches hm (List.forall_mem_nil _) (f := fun _ => none) (by simp)
  rw [List.append_nil] at ht
  have hkeeps := Keeps.of_changedIn hw ht.disk
  have hne : seat.archive h.name ≠ [] := by simp [Seat.archive, Seat.entry]
  have harea := hkeeps.areas _ (hm.areas .archives)
  have hput := Disk.get?_put_self ht.disk.sound hne (by simpa [Seat.archive, Seat.entry] using harea)
    (.dir 0o755 made) []
  rw [List.append_nil, Node.get?_nil] at hput
  have hothers : ∀ n, n ≠ h.name →
      ((w.disk.alter (seat.scratch σ) fun _ => none).put (seat.archive h.name)
        (.dir 0o755 made)).root.get? (seat.archive n) = w.disk.root.get? (seat.archive n) := by
    intro n hn
    rw [← ht.disk.get?_archive hw.tree n]
    refine Node.get?_eq_of_look_eq ?_ ht.disk.sound fun rest =>
      Disk.look_alter_outside ht.disk.sound hne (fun hp => hn (Seat.eq_of_entry_append hp).2.symm) _
    refine Disk.isSound_put ht.disk.sound (fun m hm => ?_) (hw.tree.get? hget)
    obtain ⟨mode, es, hx⟩ := harea
    rcases List.mem_append.mp hm with hm | hm
    · exact ht.disk.sound.names hx m hm
    · exact List.mem_singleton.mp hm ▸ hname
  cases hx : w.disk.root.get? (seat.archive h.name) with
  | none =>
    rw [hx] at hd'
    exact hd' ▸ ⟨hput, hothers⟩
  | some x =>
    rw [hx] at hd'
    cases x with
    | dir mode es =>
      cases es with
      | nil => exact hd' ▸ ⟨hput, hothers⟩
      | cons e es => exact hd' ▸ ⟨hx, fun _ _ => rfl⟩
    | _ => cases harchives _ hx

end World

/-- A path is found in a tree that is at two places, or there is the same trouble with it. -/
theorem Workspace.concur_sought {tree : Node} {top top' : Place} {path : String}
    (hpaths : ∀ names, Renamed (Disk.pathOf (top ++ names)) (Disk.pathOf (top' ++ names))) :
    Concur (fun _ _ => True) (sought tree top path) (sought tree top' path) := by
  have hcandidate := (hpaths []).join (Utf8.ofString path)
  rw [List.append_nil, List.append_nil] at hcandidate
  have hfailed := fun e => Failure.Alike.ofErrno "resolving " e hcandidate
  rw [sought, sought]
  dsimp only
  cases walk tree true linkLimit [] (hops (Utf8.ofString path)) with
  | error e => cases e <;> first | exact .ok trivial | exact .error (hfailed _)
  | ok found =>
    obtain ⟨here, node?⟩ := found
    cases node? with
    | none => exact .ok trivial
    | some x =>
      dsimp only
      rw [(hpaths here).length_eq]
      split_ifs
      · exact .error (hfailed _)
      all_goals exact .ok trivial

namespace Stage

variable {site : Site} {seat : Seat} {me : Nat} {base : Place} {s t u : Stage}

/-- A checkout by itself comes from one stage to another. -/
def Leads (site : Site) (me : Nat) (s t : Stage) : Prop :=
  ∃ n, Phase.run site me n s.world s.builder s.phase = (t.world, t.builder, t.phase)

theorem Leads.refl (s : Stage) : s.Leads site me s := ⟨0, rfl⟩

theorem Leads.trans (h : s.Leads site me t) (h' : t.Leads site me u) : s.Leads site me u := by
  obtain ⟨n, hn⟩ := h
  obtain ⟨m, hm⟩ := h'
  refine ⟨n + m, ?_⟩
  rw [Phase.run_add, hn]
  exact hm

theorem Leads.of_step {w w' : World} {b b' : Builder} {p p' : Phase}
    (h : p.step site me w b = (w', b', p')) : Leads site me ⟨w, b, p⟩ ⟨w', b', p'⟩ :=
  ⟨1, (Phase.run_one ..).trans h⟩

section reading

variable {w : World} {b : Builder} {build : Build} {f : Failure}

theorem Leads.of_tasks {route : Archive.Route} {tasks : List Archive.Task}
    (h : Archive.Copying.tasks w.disk route.source = .ok tasks) :
    Leads site me ⟨w, b, .openSource build route⟩ ⟨w, b, .copy build route tasks⟩ := by
  refine .of_step ?_
  unfold Phase.step
  simp only [h]

theorem Leads.of_tasks_error {route : Archive.Route}
    (h : Archive.Copying.tasks w.disk route.source = .error f) :
    Leads site me ⟨w, b, .openSource build route⟩
      ⟨w, b, .discard build.job [route.dest, build.scratch] (.error f)⟩ := by
  refine .of_step ?_
  unfold Phase.step
  simp only [h]

theorem Leads.of_ofTree {workspace : Bytes} {hash : ArchiveHash}
    (h : Fingerprint.ofTree w.disk workspace = .ok hash) :
    Leads site me ⟨w, b, .hash build workspace⟩ ⟨w, b, .share build workspace hash⟩ := by
  refine .of_step ?_
  unfold Phase.step
  simp only [h]

theorem Leads.of_ofTree_error {workspace : Bytes}
    (h : Fingerprint.ofTree w.disk workspace = .error f) :
    Leads site me ⟨w, b, .hash build workspace⟩
      ⟨w, b, .discard build.job [workspace, build.scratch] (.error f)⟩ := by
  refine .of_step ?_
  unfold Phase.step
  simp only [h]

end reading

theorem Next.cwd (h : Next site seat me s t) (hs : s.IsSound site seat) :
    t.world.disk.cwd = s.world.disk.cwd := by
  cases h with
  | go h hprepare =>
    exact (Phase.step_advances hs.world hs.archives hs.builder hs.phase hprepare h).keeps.cwd
  | fail f h hleft => exact hleft.cwd
  | @cease w b job d' f k h =>
    rw [Site.dirs_eq, ← List.map_take] at h
    exact (World.ensure_keeps [] hs.world h).1.cwd
  | probe h => rfl

theorem Goes.cwd (h : Goes site seat me s t) (hs : s.IsSound site seat) :
    t.world.disk.cwd = s.world.disk.cwd := by
  induction h with
  | refl => rfl
  | tail hgoes hnext ih => exact (hnext.cwd (Goes.archives hgoes hs).1).trans ih

/-- A stage of a checkout whose builder knows its repository. -/
structure Rides (site : Site) (seat : Seat) (base : Place) (s : Stage) : Prop where
  sound : s.IsSound site seat
  ready : s.builder.isReady = true
  cwd : s.world.disk.cwd = base

theorem isReady_run {n : Nat} {w w' : World} {b b' : Builder} {p p' : Phase} (hb : b.isReady = true)
    (h : Phase.run site me n w b p = (w', b', p')) : b'.isReady = true := by
  induction n generalizing w b p with
  | zero =>
    cases h
    exact hb
  | succ n ih =>
    obtain ⟨w₁, b₁, p₁, hstep⟩ : ∃ w₁ b₁ p₁, p.step site me w b = (w₁, b₁, p₁) := ⟨_, _, _, rfl⟩
    rw [Phase.run_succ hstep] at h
    exact ih (Phase.isReady_step hstep hb) h

/-- It goes on so, and the archives stay as they are until there is an answer. -/
theorem Rides.leads (hs : s.Rides site seat base) (h : s.Leads site me t) :
    t.Rides site seat base ∧
      ((∀ outcome, t.phase.result? ≠ some (.ok outcome)) → s.world.SameArchives seat t.world) := by
  obtain ⟨n, hn⟩ := h
  have hgoes := Goes.of_run hs.sound hs.ready hn
  obtain ⟨hsound, hsame⟩ := Goes.archives hgoes hs.sound
  exact ⟨⟨hsound, isReady_run hs.ready hn, (Goes.cwd hgoes hs.sound).trans hs.cwd⟩, hsame⟩

/-- What a build of a path of a tree leaves of the archives: all as it was, or its own archive at its
place. -/
inductive Leaves (seat : Seat) (tree : Node) (key : CheckoutKey) (w w' : World) :
    Except Failure Outcome → Prop
  | failed (f : Failure) (h : w.SameArchives seat w') : Leaves seat tree key w w' (.error f)
  | nothing (hlands : Lands tree key.path none) (h : w.SameArchives seat w') :
    Leaves seat tree key w w' (.ok ⟨key.commit, none⟩)
  | published {src : Place} {made : Entries} {hash : ArchiveHash}
    (hlands : Lands tree key.path (some src)) (hmade : Archive.Reaches tree src ([], made))
    (hsettled : w'.disk.root.get? (seat.archive hash.name) =
      some (World.settled made (w.disk.root.get? (seat.archive hash.name))))
    (hothers : ∀ n, n ≠ hash.name →
      w'.disk.root.get? (seat.archive n) = w.disk.root.get? (seat.archive n)) :
    Leaves seat tree key w w' (.ok ⟨key.commit, some hash⟩)

section

variable {tree : Node} {key : CheckoutKey} {w w' w'' : World} {r : Except Failure Outcome}

theorem Leaves.after (h : w.SameArchives seat w') (hleaves : Leaves seat tree key w' w'' r) :
    Leaves seat tree key w w'' r := by
  cases hleaves with
  | failed f h' => exact .failed f fun n => (h' n).trans (h n)
  | nothing hlands h' => exact .nothing hlands fun n => (h' n).trans (h n)
  | published hlands hmade hsettled hothers =>
    exact .published hlands hmade (h _ ▸ hsettled) fun n hn => (hothers n hn).trans (h n)

theorem Leaves.before (hleaves : Leaves seat tree key w w' r) (h : w'.SameArchives seat w'') :
    Leaves seat tree key w w'' r := by
  cases hleaves with
  | failed f h' => exact .failed f fun n => (h n).trans (h' n)
  | nothing hlands h' => exact .nothing hlands fun n => (h n).trans (h' n)
  | published hlands hmade hsettled hothers =>
    exact .published hlands hmade ((h _).trans hsettled) fun n hn => (h n).trans (hothers n hn)

end

/-- How a build ends that goes on by itself. -/
def Comes (site : Site) (seat : Seat) (me : Nat) (build : Build) (tree : Node) (s : Stage)
    (r : Except Failure Outcome) : Prop :=
  ∃ w scratches, s.Leads site me ⟨w, s.builder, .discard build.job scratches r⟩ ∧
    Leaves seat tree build.key s.world w r

/-- The end of a build is the end of what leads to it. -/
theorem Comes.of_leads {build : Build} {tree : Node} {r : Except Failure Outcome}
    (hs : s.Rides site seat base) (h : s.Leads site me t) (hb : t.builder = s.builder)
    (ht : t.phase.result? = none) (hcomes : t.Comes site seat me build tree r) :
    s.Comes site seat me build tree r := by
  have hsame : s.world.SameArchives seat t.world :=
    (hs.leads h).2 fun outcome hr => by rw [ht] at hr; cases hr
  obtain ⟨w, scratches, h', hleaves⟩ := hcomes
  exact ⟨w, scratches, h.trans (hb ▸ h'), hleaves.after hsame⟩

theorem Comes.failed {build : Build} {tree : Node} {w : World} {scratches : List Bytes} {f : Failure}
    (hs : s.Rides site seat base)
    (h : s.Leads site me ⟨w, s.builder, .discard build.job scratches (.error f)⟩) :
    s.Comes site seat me build tree (.error f) :=
  ⟨w, scratches, h, .failed f ((hs.leads h).2 (by simp [Phase.result?]))⟩

/-- Two builds come to the same. -/
def Concurs (site : Site) (seat : Seat) (me me' : Nat) (build build' : Build) (tree : Node)
    (s s' : Stage) : Prop :=
  ∃ r r', s.Comes site seat me build tree r ∧ s'.Comes site seat me' build' tree r' ∧ Concur Eq r r'

section

variable {me' : Nat} {s' t' : Stage} {build build' : Build} {tree : Node}

theorem Concurs.of_leads (hs : s.Rides site seat base) (hs' : s'.Rides site seat base)
    (h : s.Leads site me t) (h' : s'.Leads site me' t') (hb : t.builder = s.builder)
    (hb' : t'.builder = s'.builder) (ht : t.phase.result? = none) (ht' : t'.phase.result? = none)
    (hconcurs : Concurs site seat me me' build build' tree t t') :
    Concurs site seat me me' build build' tree s s' := by
  obtain ⟨r, r', hr, hr', hconcur⟩ := hconcurs
  exact ⟨r, r', hr.of_leads hs h hb ht, hr'.of_leads hs' h' hb' ht', hconcur⟩

theorem Concurs.of_failed {w₁ w₁' : World} {scratches scratches' : List Bytes} {f f' : Failure}
    (hs : s.Rides site seat base) (hs' : s'.Rides site seat base)
    (h : s.Leads site me ⟨w₁, s.builder, .discard build.job scratches (.error f)⟩)
    (h' : s'.Leads site me' ⟨w₁', s'.builder, .discard build'.job scratches' (.error f')⟩)
    (halike : f.Alike f') : Concurs site seat me me' build build' tree s s' :=
  ⟨_, _, .failed hs h, .failed hs' h', .error halike⟩

end

/-! ### The archive -/

/-- A scratch directory holds entries. -/
structure Filled (site : Site) (seat : Seat) (w : World) (workspace : Bytes) (τ : Scratch) (mode : Nat)
    (es : Entries) : Prop where
  made : w.Made site seat workspace τ
  holds : w.disk.root.get? (seat.scratch τ) = some (.dir mode es)

section

variable {w : World} {b : Builder} {build : Build} {tree : Node} {workspace : Bytes} {τ : Scratch}
  {mode : Nat} {es : Entries} {hash : ArchiveHash} {src : Place}

theorem Filled.locate (h : Filled site seat w workspace τ mode es) (hw : w.IsSound site seat)
    (hlimit : workspace.length ≤ Disk.pathLimit) :
    w.disk.LeadsTo workspace (seat.scratch τ) ∧
      w.disk.locate workspace = .ok (seat.scratch τ, .dir mode es) := by
  have hl := hw.seat.leads_scratch h.made.length ⟨mode, es, h.holds⟩
  rw [← h.made.path] at hl
  refine ⟨hl, ?_⟩
  rw [Disk.locate, Disk.find, if_neg (by omega), hl.go h.holds]
  rfl

theorem comes_publish (hs : Rides site seat base ⟨w, b, .publish build workspace hash⟩)
    (hfilled : Filled site seat w workspace τ 0o755 es)
    (hlands : Lands tree build.job.key.path (some src)) (hmade : Archive.Reaches tree src ([], es)) :
    Comes site seat me build tree ⟨w, b, .publish build workspace hash⟩
      (if Disk.IsShort (site.archivePath hash) (seat.names ++ [Area.archives.name] ++ [hash.name]) then
        .ok ⟨build.commit, some hash⟩
      else .error (.ofErrno ("publishing " ++ Utf8.toStringLossy workspace ++ " to " ++
        Utf8.toStringLossy (site.archivePath hash)) .nameTooLong)) := by
  have hw := hs.sound.world
  have hisDir : ∀ x, w.disk.root.get? (seat.archive hash.name) = some x → x.isDir = true :=
    fun x hx => (hs.sound.archives _ x hx).1
  obtain ⟨_, _, -, -, -, hhash⟩ := hs.sound.phase.ready
  have hpublish := World.publish_eq hw hfilled.made (hs.sound.short _ (by simp [Phase.scratches]))
    hfilled.holds hisDir hhash.isName
  by_cases hshort : Disk.IsShort (site.archivePath hash)
      (seat.names ++ [Area.archives.name] ++ [hash.name])
  · rw [if_pos hshort] at hpublish ⊢
    obtain ⟨d', hd'⟩ : ∃ d', d' = match w.disk.root.get? (seat.archive hash.name) with
      | some (.dir _ (_ :: _)) => w.disk
      | _ => (w.disk.alter (seat.scratch τ) fun _ => none).put (seat.archive hash.name)
          (.dir 0o755 es) := ⟨_, rfl⟩
    obtain ⟨hsettled, hothers⟩ := World.publish_settles hw hfilled.made hfilled.holds hisDir
      hhash.isName hd'
    rw [← hd'] at hpublish
    have hstep : (Phase.publish build workspace hash).step site me w b = ({ w with disk := d' }, b,
        .discard build.job [workspace, build.scratch] (.ok ⟨build.commit, some hash⟩)) := by
      unfold Phase.step
      simp only [hpublish]
    exact ⟨_, _, .of_step hstep, .published hlands hmade hsettled hothers⟩
  · rw [if_neg hshort] at hpublish ⊢
    have hstep : (Phase.publish build workspace hash).step site me w b = (w, b,
        .discard build.job [workspace, build.scratch] (.error (.ofErrno ("publishing " ++
          Utf8.toStringLossy workspace ++ " to " ++ Utf8.toStringLossy (site.archivePath hash))
            .nameTooLong))) := by
      unfold Phase.step
      simp only [hpublish]
    exact .failed hs (.of_step hstep)

theorem Filled.setMode (h : Filled site seat w workspace τ mode es) (hw : w.IsSound site seat)
    (hlimit : workspace.length ≤ Disk.pathLimit) (mode' : Nat) :
    ∃ d', w.disk.setMode workspace mode' = .ok d' ∧
      Filled site seat { w with disk := d' } workspace τ mode' es := by
  obtain ⟨hl, hloc⟩ := h.locate hw hlimit
  rcases hl.setMode_cases mode' with ⟨e, herror⟩ | ⟨old, es', hget, hset⟩
  · rw [Disk.setMode, hloc] at herror
    cases herror
  · obtain ⟨-, rfl⟩ := Node.dir.inj (Option.some.inj (h.holds.symm.trans hget))
    obtain ⟨hkeeps, hput⟩ := hw.put_scratch (List.mem_singleton.mpr h.made.path.symm) (h.made.areas _)
      (Node.isSound_dir_iff.mpr (Node.isSound_dir_iff.mp (hw.tree.get? h.holds)) :
        (Node.dir mode' es).IsSound)
    exact ⟨_, hset, h.made.keeps hkeeps, hput⟩

end

section

variable {me' : Nat} {w w' : World} {b b' : Builder} {build build' : Build} {tree : Node}
  {workspace workspace' : Bytes} {τ τ' : Scratch} {mode mode' : Nat} {es : Entries}
  {hash : ArchiveHash} {src : Place}

theorem renamed_workspace {p p' : Phase} (hs : Rides site seat base ⟨w, b, p⟩)
    (hs' : Rides site seat base ⟨w', b', p'⟩) (hm : w.Made site seat workspace τ)
    (hm' : w'.Made site seat workspace' τ') (hkin : τ.Kin τ') : Renamed workspace workspace' := by
  have hrenamed := Renamed.of_kin hkin site w.disk.cwd
  rwa [← hm.path, show w.disk.cwd = w'.disk.cwd from hs.cwd.trans hs'.cwd.symm, ← hm'.path] at hrenamed

section

variable (hsame : build.key = build'.key) (hfilled : Filled site seat w workspace τ mode es)
  (hfilled' : Filled site seat w' workspace' τ' mode' es) (hkin : τ.Kin τ')
  (hlands : Lands tree build.job.key.path (some src)) (hmade : Archive.Reaches tree src ([], es))
include hsame hfilled hfilled' hkin hlands hmade

theorem concurs_share (hs : Rides site seat base ⟨w, b, .share build workspace hash⟩)
    (hs' : Rides site seat base ⟨w', b', .share build' workspace' hash⟩) :
    Concurs site seat me me' build build' tree ⟨w, b, .share build workspace hash⟩
      ⟨w', b', .share build' workspace' hash⟩ := by
  have hgoes : ∀ (me : Nat) {w : World} {b : Builder} {build : Build} {workspace : Bytes} {τ : Scratch}
      {mode : Nat}, Rides site seat base ⟨w, b, .share build workspace hash⟩ →
        Filled site seat w workspace τ mode es → ∃ t : World,
          Leads site me ⟨w, b, .share build workspace hash⟩ ⟨t, b, .publish build workspace hash⟩ ∧
            Filled site seat t workspace τ 0o755 es := by
    intro me w b build workspace τ mode hs hfilled
    obtain ⟨d', hset, hfilled'⟩ := hfilled.setMode hs.sound.world
      (hs.sound.short _ (by simp [Phase.scratches])) 0o755
    refine ⟨_, .of_step ?_, hfilled'⟩
    unfold Phase.step
    simp only [hset]
  obtain ⟨hcommit, hpath⟩ := CheckoutKey.mk.inj hsame
  obtain ⟨t, hleads, hfilled₁⟩ := hgoes me hs hfilled
  obtain ⟨t', hleads', hfilled₁'⟩ := hgoes me' hs' hfilled'
  refine Concurs.of_leads hs hs' hleads hleads' rfl rfl rfl rfl
    ⟨_, _, comes_publish (hs.leads hleads).1 hfilled₁ hlands hmade,
      comes_publish (hs'.leads hleads').1 hfilled₁' (hpath ▸ hlands) hmade, ?_⟩
  split_ifs
  · exact .ok (by rw [hcommit])
  · have hrenamed := renamed_workspace hs hs' hfilled.made hfilled'.made hkin
    have halike := Failure.Alike.io "publishing " (" to " ++ Utf8.toStringLossy (site.archivePath hash))
      (.errno .nameTooLong) hrenamed
    rw [← String.append_assoc, ← String.append_assoc] at halike
    exact .error halike

/-- Two copies that hold the same get one hash, and one archive. -/
theorem concurs_hash (hs : Rides site seat base ⟨w, b, .hash build workspace⟩)
    (hs' : Rides site seat base ⟨w', b', .hash build' workspace'⟩) :
    Concurs site seat me me' build build' tree ⟨w, b, .hash build workspace⟩
      ⟨w', b', .hash build' workspace'⟩ := by
  have hstat : ∀ {w : World} {b : Builder} {build : Build} {workspace : Bytes} {τ : Scratch}
      {mode : Nat}, Rides site seat base ⟨w, b, .hash build workspace⟩ →
        Filled site seat w workspace τ mode es → w.disk.stat workspace = .ok (.dir mode es) := by
    intro w b build workspace τ mode hs hfilled
    obtain ⟨-, hloc⟩ := hfilled.locate hs.sound.world (hs.sound.short _ (by simp [Phase.scratches]))
    rw [Disk.stat, hloc]
    rfl
  have hconcur := Archive.concur_ofTree (renamed_workspace hs hs' hfilled.made hfilled'.made hkin)
    (hstat hs hfilled) (hstat hs' hfilled')
  generalize hhash : Fingerprint.ofTree w.disk workspace = r at hconcur
  generalize hhash' : Fingerprint.ofTree w'.disk workspace' = r' at hconcur
  cases hconcur with
  | error halike =>
    exact .of_failed hs hs' (.of_ofTree_error hhash) (.of_ofTree_error hhash') halike
  | ok heq =>
    subst heq
    have hleads : Leads site me ⟨w, b, .hash build workspace⟩ ⟨w, b, .share build workspace _⟩ :=
      .of_ofTree hhash
    have hleads' : Leads site me' ⟨w', b', .hash build' workspace'⟩
      ⟨w', b', .share build' workspace' _⟩ := .of_ofTree hhash'
    exact .of_leads hs hs' hleads hleads' rfl rfl rfl rfl
      (concurs_share hsame hfilled hfilled' hkin hlands hmade (hs.leads hleads).1
        (hs'.leads hleads').1)

end

/-! ### The copy -/

/-- A directory of a clone is found, and a workspace beside the clone is empty. -/
structure Opened (site : Site) (seat : Seat) (w : World) (build : Build) (tree : Node)
    (route : Archive.Route) (σ τ : Scratch) (src : Place) : Prop where
  sees : w.Sees site seat build tree σ src
  empty : ∃ mode, Filled site seat w route.dest τ mode []
  source : route.source = Disk.pathOf (seat.checkout σ ++ src)
  apart : σ ≠ τ

section

variable {route : Archive.Route} {σ σ' : Scratch}

theorem Rides.filled (hs : Rides site seat base ⟨w, b, .hash build workspace⟩)
    (hpath : workspace = τ.path site base)
    (hholds : w.disk.root.get? (seat.scratch τ) = some (.dir mode es)) :
    Filled site seat w workspace τ mode es := by
  obtain ⟨ρ, _, hm, -, -⟩ := hs.sound.phase.ready
  have hcwd : w.disk.cwd = base := hs.cwd
  obtain rfl := hs.sound.world.seat.eq_of_path_eq (hm.path.symm.trans (hcwd ▸ hpath))
  exact ⟨hm, hholds⟩

theorem Opened.drawn (ho : Opened site seat w build tree route σ τ src)
    (hs : Rides site seat base ⟨w, b, .openSource build route⟩) {es : Entries} {mode : Nat}
    (hsrc : tree.get? src = some (.dir mode es)) (htasks : Archive.Copying.tasks w.disk route.source =
      .ok ((Archive.chores es).map (Archive.Chore.task (seat.checkout σ)))) :
    Archive.Drawn tree (seat.checkout σ) src (seat.scratch τ) route.dest ⟨w.disk, {}⟩
      (Archive.chores es) {} := by
  have hw := hs.sound.world
  obtain ⟨mode', hfilled⟩ := ho.empty
  obtain ⟨hl, -⟩ := hfilled.locate hw (hs.sound.short _ (by simp [Phase.scratches]))
  rw [ho.source] at htasks
  exact .of_tasks (ho.sees.isSound hw) hw.tree ho.sees.bears hsrc hl hfilled.holds htasks

theorem Opened.off {τ : Scratch} (ho : Opened site seat w build tree route σ τ src) :
    ¬ seat.scratch τ <+: seat.checkout σ ∧ ¬ seat.checkout σ <+: seat.scratch τ := by
  refine ⟨fun h => ho.apart (Seat.eq_of_scratch_append h).symm, fun h => ho.apart ?_⟩
  have habove : seat.scratch σ <+: seat.scratch τ ++ [] :=
    (List.prefix_append _ _).trans (h.trans (List.prefix_append _ _))
  exact Seat.eq_of_scratch_append habove

variable (site me b build route) in
theorem leads_finish {es : Entries} {top root : Place}
    (hdrawn : Archive.Drawn tree top src root route.dest ⟨w.disk, {}⟩ (Archive.chores es) {})
    {p : Archive.Copying.Progress} (hp : Archive.Copying.finish route
      ((Archive.chores es).map (Archive.Chore.task top)) w.disk = p) :
    (∀ k, p.result = .ok k → Leads site me
        ⟨w, b, .copy build route ((Archive.chores es).map (Archive.Chore.task top))⟩
        ⟨{ w with disk := k.disk }, b, .hash build route.dest⟩) ∧
      ∀ f, p.result = .error f → ∃ w₁, Leads site me
        ⟨w, b, .copy build route ((Archive.chores es).map (Archive.Chore.task top))⟩
        ⟨w₁, b, .discard build.job [route.dest, build.scratch] (.error f)⟩ := by
  have hlength : ∀ t ∈ (Archive.chores es).map (Archive.Chore.task top),
      t.target.length ≤ Disk.pathLimit := by
    intro t ht
    obtain ⟨c, hc, rfl⟩ := List.mem_map.mp ht
    obtain ⟨e, -, rfl⟩ := List.mem_map.mp hc
    exact Nat.le_of_ble_eq_true rfl
  have hrun := Phase.run_finish site me b build hdrawn.underway hlength
  rw [hp] at hrun
  simp only [Archive.Copying.Progress.result]
  cases hstop : p.stop with
  | none =>
    rw [hstop] at hrun
    refine ⟨?_, by rintro _ ⟨⟩⟩
    rintro _ ⟨⟩
    exact Leads.trans ⟨_, hrun⟩ (.of_step rfl)
  | some f =>
    rw [hstop] at hrun
    refine ⟨by rintro _ ⟨⟩, ?_⟩
    rintro _ ⟨⟩
    exact ⟨_, ⟨_, hrun⟩⟩

theorem concurs_openSource {route' : Archive.Route} {τ τ' : Scratch} (hsame : build.key = build'.key)
    (ho : Opened site seat w build tree route σ τ src)
    (ho' : Opened site seat w' build' tree route' σ' τ' src) (hkin : σ.Kin σ') (hkin' : τ.Kin τ')
    (hconfined : Archive.IsConfined tree src)
    (hs : Rides site seat base ⟨w, b, .openSource build route⟩)
    (hs' : Rides site seat base ⟨w', b', .openSource build' route'⟩) :
    Concurs site seat me me' build build' tree ⟨w, b, .openSource build route⟩
      ⟨w', b', .openSource build' route'⟩ := by
  have hw := hs.sound.world
  have htree := ho.sees.isSound hw
  obtain ⟨modeₛ, es, hsrc⟩ := ho.sees.lands.isDirAt
  have hpaths : ∀ names, Renamed (Disk.pathOf (seat.checkout σ ++ names))
      (Disk.pathOf (seat.checkout σ' ++ names)) := .checkout hkin seat
  have hconcur := Archive.Copying.concur_tasks ⟨ho.sees.bears, ho'.sees.bears, hpaths⟩ htree
    hw.tree hsrc
  rw [← ho.source, ← ho'.source] at hconcur
  generalize htasks : Archive.Copying.tasks w.disk route.source = r at hconcur
  generalize htasks' : Archive.Copying.tasks w'.disk route'.source = r' at hconcur
  cases hconcur with
  | error halike => exact .of_failed hs hs' (.of_tasks_error htasks) (.of_tasks_error htasks') halike
  | ok heq =>
    obtain ⟨rfl, rfl⟩ := heq
    have hleads : Leads site me ⟨w, b, .openSource build route⟩ ⟨w, b, .copy build route _⟩ :=
      .of_tasks htasks
    have hleads' : Leads site me' ⟨w', b', .openSource build' route'⟩
      ⟨w', b', .copy build' route' _⟩ := .of_tasks htasks'
    have hdrawn := ho.drawn hs hsrc htasks
    have hdrawn' := ho'.drawn hs' hsrc htasks'
    have hs₁ := (hs.leads hleads).1
    have hs₁' := (hs'.leads hleads').1
    refine .of_leads hs hs' hleads hleads' rfl rfl rfl rfl ?_
    obtain ⟨source, dest⟩ := route
    obtain ⟨source', dest'⟩ := route'
    obtain rfl : source = _ := ho.source
    obtain rfl : source' = _ := ho'.source
    obtain ⟨_, hfilled⟩ := ho.empty
    obtain ⟨_, hfilled'⟩ := ho'.empty
    have hfinish := Archive.Copying.concur_finish htree hconfined hpaths
      (renamed_workspace hs hs' hfilled.made hfilled'.made hkin') ho.off.1 ho.off.2 ho'.off.1 ho'.off.2
      hdrawn hdrawn'
    obtain ⟨hok, herror⟩ := leads_finish site me b build ⟨Disk.pathOf (seat.checkout σ ++ src), dest⟩
      hdrawn rfl
    obtain ⟨hok', herror'⟩ := leads_finish site me' b' build'
      ⟨Disk.pathOf (seat.checkout σ' ++ src), dest'⟩ hdrawn' rfl
    generalize (Archive.Copying.finish _ _ w.disk).result = q at hfinish hok herror
    generalize (Archive.Copying.finish _ _ w'.disk).result = q' at hfinish hok' herror'
    cases hfinish with
    | error halike =>
      obtain ⟨w₁, hlast⟩ := herror _ rfl
      obtain ⟨w₁', hlast'⟩ := herror' _ rfl
      exact .of_failed hs₁ hs₁' hlast hlast' halike
    | ok hend =>
      obtain ⟨s, hend, hend'⟩ := hend
      have hs₂ := (hs₁.leads (hok _ rfl)).1
      have hs₂' := (hs₁'.leads (hok' _ rfl)).1
      obtain ⟨mode, hholds⟩ := hend.matched.holds
      obtain ⟨mode', hholds'⟩ := hend'.matched.holds
      exact .of_leads hs₁ hs₁' (hok _ rfl) (hok' _ rfl) rfl rfl rfl rfl
        (concurs_hash hsame (hs₂.filled (hs.cwd ▸ hfilled.made.path) hholds)
          (hs₂'.filled (hs'.cwd ▸ hfilled'.made.path) hholds') hkin' ho.sees.lands
          hend.matched.reached hs₂ hs₂')

end

/-! ### The workspace -/

theorem IsSound.free_scratch {p : Phase} (hs : IsSound site seat ⟨w, b, p⟩) (purpose : Purpose) :
    w.disk.root.get? (seat.scratch ⟨purpose, w.scratches + 1⟩) = none := by
  by_contra hsome
  obtain ⟨x, hx⟩ := Option.ne_none_iff_exists'.mp hsome
  have hpurpose : purpose.area ≠ .archives := by cases purpose <;> simp [Purpose.area]
  obtain ⟨ρ, hρ, hentry⟩ := hs.holds _ _ x hpurpose hx
  obtain ⟨σ, hm⟩ := hs.phase.made _ hρ
  obtain rfl := hs.world.seat.eq_of_path_eq hm.path
  have heq : seat.scratch ⟨purpose, w.scratches + 1⟩ <+: seat.scratch ρ ++ [] := by
    rw [List.append_nil, ← hentry]
    exact List.prefix_rfl
  have hnumber := hm.number
  rw [← Seat.eq_of_scratch_append heq] at hnumber
  exact absurd hnumber (Nat.not_succ_le_self _)

/-- Equally long names are short or not together. -/
theorem isShort_scratch_iff {σ τ : Scratch} (hkin : σ.Kin τ) :
    Disk.IsShort (σ.path site base) (seat.names ++ [σ.purpose.area.name] ++ [σ.name]) ↔
      Disk.IsShort (τ.path site base) (seat.names ++ [τ.purpose.area.name] ++ [τ.name]) := by
  have hshort : ∀ {σ τ : Scratch}, σ.Kin τ →
      Disk.IsShort (σ.path site base) (seat.names ++ [σ.purpose.area.name] ++ [σ.name]) →
        Disk.IsShort (τ.path site base) (seat.names ++ [τ.purpose.area.name] ++ [τ.name]) := by
    intro σ τ hkin h
    refine ⟨(Renamed.of_kin hkin site base).length_eq ▸ h.path, fun n hn => ?_⟩
    rcases List.mem_append.mp hn with hn | hn
    · exact h.names n (List.mem_append_left _ (hkin.purpose ▸ hn))
    · rw [List.mem_singleton.mp hn, ← hkin.length_name_eq]
      exact h.names _ (by simp)
  exact ⟨hshort hkin, hshort ⟨hkin.purpose.symm, hkin.few', hkin.few⟩⟩

section

variable {σ σ' : Scratch} {source source' : Bytes}

variable (me) in
theorem leads_openWorkspace (hs : Rides site seat base ⟨w, b, .openWorkspace build source⟩)
    (hsees : w.Sees site seat build tree σ src) (hsource : source = Disk.pathOf (seat.checkout σ ++ src))
    {τ : Scratch} (hτ : τ = ⟨.work, w.scratches + 1⟩) :
    (Disk.IsShort (τ.path site base) (seat.names ++ [τ.purpose.area.name] ++ [τ.name]) → ∃ t,
      Leads site me ⟨w, b, .openWorkspace build source⟩
          ⟨t, b, .openSource build ⟨source, τ.path site base⟩⟩ ∧
        Opened site seat t build tree ⟨source, τ.path site base⟩ σ τ src) ∧
      (¬ Disk.IsShort (τ.path site base) (seat.names ++ [τ.purpose.area.name] ++ [τ.name]) →
        Leads site me ⟨w, b, .openWorkspace build source⟩ ⟨w, b, .discard build.job [build.scratch]
          (.error (.ofErrno ("creating workspace in " ++ Utf8.toStringLossy site.workArea)
            .nameTooLong))⟩) := by
  have hw := hs.sound.world
  have hcwd : w.disk.cwd = base := hs.cwd
  have hmake := World.makeScratch_eq hw .work (hsees.made.areas _) hτ
    (hτ ▸ hs.sound.free_scratch .work)
  have hpurpose : τ.purpose = .work := hτ ▸ rfl
  rw [hcwd] at hmake
  rw [hpurpose]
  refine ⟨fun hshort => ?_, fun hlong => ?_⟩
  · rw [if_pos hshort] at hmake
    rcases World.makeScratch_cases hw hsees.made.areas .work hmake with
      ⟨e, hr, -⟩ | ⟨path, hr, hnew, hkeeps, ρ, _, hm, hget, mode, rfl⟩
    · cases hr
    · obtain rfl := Except.ok.inj hr
      have hne := hsees.made.ne_of_isNew hw hnew
      have hm' := hsees.made.keeps hkeeps
      obtain rfl : τ = ρ := by
        have hpath := hm.path
        rw [← hcwd] at hpath
        exact hw.seat.eq_of_path_eq hpath
      refine ⟨_, .of_step ?_, hsees.keeps hkeeps (by simpa using hne.symm), ⟨mode, hm, hget⟩, hsource, ?_⟩
      · unfold Phase.step
        rw [show site.workArea = site.areaPath Purpose.work.area from rfl,
          show "archive-" = Purpose.work.word from rfl]
        simp only [hmake]
      · rintro rfl
        refine hne ?_
        rw [hsees.made.path, hcwd]
  · rw [if_neg hlong] at hmake
    refine .of_step ?_
    unfold Phase.step
    rw [show site.workArea = site.areaPath Purpose.work.area from rfl,
      show "archive-" = Purpose.work.word from rfl]
    simp only [hmake]

theorem concurs_openWorkspace (hsame : build.key = build'.key)
    (hsees : w.Sees site seat build tree σ src) (hsees' : w'.Sees site seat build' tree σ' src)
    (hsource : source = Disk.pathOf (seat.checkout σ ++ src))
    (hsource' : source' = Disk.pathOf (seat.checkout σ' ++ src)) (hkin : σ.Kin σ')
    (hfew : w.scratches + 1 < 10 ^ 6) (hfew' : w'.scratches + 1 < 10 ^ 6)
    (hconfined : Archive.IsConfined tree src)
    (hs : Rides site seat base ⟨w, b, .openWorkspace build source⟩)
    (hs' : Rides site seat base ⟨w', b', .openWorkspace build' source'⟩) :
    Concurs site seat me me' build build' tree ⟨w, b, .openWorkspace build source⟩
      ⟨w', b', .openWorkspace build' source'⟩ := by
  obtain ⟨τ, hτ⟩ : ∃ τ : Scratch, τ = ⟨.work, w.scratches + 1⟩ := ⟨_, rfl⟩
  obtain ⟨τ', hτ'⟩ : ∃ τ : Scratch, τ = ⟨.work, w'.scratches + 1⟩ := ⟨_, rfl⟩
  have hkin' : τ.Kin τ' := ⟨by rw [hτ, hτ'], hτ ▸ hfew, hτ' ▸ hfew'⟩
  obtain ⟨hopens, hfails⟩ := leads_openWorkspace me hs hsees hsource hτ
  obtain ⟨hopens', hfails'⟩ := leads_openWorkspace me' hs' hsees' hsource' hτ'
  by_cases hshort : Disk.IsShort (τ.path site base) (seat.names ++ [τ.purpose.area.name] ++ [τ.name])
  · obtain ⟨t, hleads, ho⟩ := hopens hshort
    obtain ⟨t', hleads', ho'⟩ := hopens' ((isShort_scratch_iff hkin').mp hshort)
    exact .of_leads hs hs' hleads hleads' rfl rfl rfl rfl
      (concurs_openSource hsame ho ho' hkin hkin' hconfined (hs.leads hleads).1
        (hs'.leads hleads').1)
  · exact .of_failed hs hs' (hfails hshort) (hfails' (mt (isShort_scratch_iff hkin').mpr hshort))
      (.same _)

/-! ### The path -/

/-- A build whose path is about to be looked for has the tree of its commit in a scratch directory. -/
structure Cloned (site : Site) (seat : Seat) (base : Place) (w : World) (build : Build) (tree : Entries)
    (σ : Scratch) : Prop where
  path : build.scratch = σ.path site base
  tree : w.HoldsTree site seat build.scratch tree

/-- Two builds of one path in one tree come to the same: one archive, no archive, or one failure. -/
theorem concurs_locate (hroom : seat.HasRoom) (hhome : ∀ n ∈ seat.home, n.length ≤ 255)
    {entries : Entries} {path : String} (hsame : build.key = build'.key)
    (hc : Cloned site seat base w build entries σ) (hc' : Cloned site seat base w' build' entries σ')
    (hkin : σ.Kin σ') (hnormal : Path.normalize path = .ok build.job.key.path)
    (hcontained : IsContained (World.checkedOut entries) build.job.key.path)
    (hfew : w.scratches + 1 < 10 ^ 6) (hfew' : w'.scratches + 1 < 10 ^ 6)
    (hs : Rides site seat base ⟨w, b, .locate build⟩)
    (hs' : Rides site seat base ⟨w', b', .locate build'⟩) :
    Concurs site seat me me' build build' (World.checkedOut entries) ⟨w, b, .locate build⟩
      ⟨w', b', .locate build'⟩ := by
  have hw := hs.sound.world
  have hw' := hs'.sound.world
  have hcwd : w.disk.cwd = base := hs.cwd
  have hcwd' : w'.disk.cwd = base := hs'.cwd
  obtain ⟨hcommit, hpath⟩ := CheckoutKey.mk.inj hsame
  obtain ⟨ρ, hρ, hfound⟩ := hc.tree.subtree?_eq hw hroom hhome hnormal hcontained.way
  obtain ⟨ρ', hρ', hfound'⟩ := hc'.tree.subtree?_eq hw' hroom hhome (hpath ▸ hnormal)
    (hpath ▸ hcontained.way)
  have hlocates : ∀ (me : Nat) (b : Builder) {w : World} {build : Build}
      {r : Except Failure (Option Bytes)},
      Workspace.subtree? w.disk (Build.checkout build.scratch) build.job.key.path = r →
        Leads site me ⟨w, b, .locate build⟩ ⟨w, b, match r with
          | .ok none => .discard build.job [build.scratch] (.ok ⟨build.commit, none⟩)
          | .ok (some source) => .openWorkspace build source
          | .error f => .discard build.job [build.scratch] (.error f)⟩ := by
    intro me b w build r hr
    refine .of_step ?_
    unfold Phase.step
    simp only [hr]
    rcases r with f | (- | source) <;> rfl
  obtain rfl : σ = ρ := hw.seat.eq_of_path_eq (by rw [← hρ, hc.path, hcwd])
  obtain rfl : σ' = ρ' := hw'.seat.eq_of_path_eq (by rw [← hρ', hc'.path, hcwd'])
  have hconcur : Concur (fun _ _ => True)
      (Workspace.subtree? w.disk (Build.checkout build.scratch) build.job.key.path)
      (Workspace.subtree? w'.disk (Build.checkout build'.scratch) build'.job.key.path) := by
    rw [hfound, hfound', ← hpath]
    exact Workspace.concur_sought (.checkout hkin seat)
  generalize hr : Workspace.subtree? w.disk (Build.checkout build.scratch) build.job.key.path = r
    at hconcur
  generalize hr' : Workspace.subtree? w'.disk (Build.checkout build'.scratch) build'.job.key.path = r'
    at hconcur
  have hleads := hlocates me b hr
  have hleads' := hlocates me' b' hr'
  cases hconcur with
  | error halike => exact .of_failed hs hs' hleads hleads' halike
  | ok =>
    obtain ⟨τ, here?, hm, hb, hlands, rfl⟩ := hw.lands rfl hc.tree hnormal hcontained hr
    obtain ⟨τ', here?', hm', hb', hlands', rfl⟩ :=
      hw'.lands rfl hc'.tree (hpath ▸ hnormal) (hpath ▸ hcontained) hr'
    obtain rfl : here? = here?' := hlands.unique (hpath ▸ hlands')
    obtain rfl : τ = σ := hw.seat.eq_of_path_eq (hm.path.symm.trans hρ)
    obtain rfl : τ' = σ' := hw'.seat.eq_of_path_eq (hm'.path.symm.trans hρ')
    cases here? with
    | none =>
      exact ⟨_, _, ⟨_, _, hleads, .nothing hlands fun _ => rfl⟩,
        ⟨_, _, hleads', .nothing hlands' fun _ => rfl⟩,
        .ok (by rw [hcommit])⟩
    | some src =>
      exact .of_leads hs hs' hleads hleads' rfl rfl rfl rfl
        (concurs_openWorkspace hsame ⟨hm, hb, hlands⟩ ⟨hm', hb', hlands'⟩ rfl rfl hkin hfew hfew'
          (hcontained.copy src hlands) (hs.leads hleads).1 (hs'.leads hleads').1)

end

end

end Stage

end Depot
