import Depot.Proofs.Checkout.Refetching

/-!
Builders that are lost. A new builder knows nothing of what was built before and builds it again. It
gives the same answers as the one that was lost, and leaves the same archives.
-/

namespace Depot

open Files Fingerprint

section

variable {site : Site} {seat : Seat} {base : Place} {w w' v v' : World} {key key' : CheckoutKey}
  {tree : Entries} {tree' : Node} {archive : Option ArchiveHash} {r r' : Except Failure Outcome}

/-! ### What stays of a build -/

namespace World

theorem settled_cases (made : Entries) (x? : Option Node) :
    (∃ mode e es, settled made x? = .dir mode (e :: es)) ∨ settled made x? = .dir 0o755 made := by
  unfold settled
  split
  · exact .inl ⟨_, _, _, rfl⟩
  · exact .inr rfl

theorem settled_settled (made : Entries) (x? : Option Node) :
    settled made (some (settled made x?)) = settled made x? := by
  rcases settled_cases made x? with ⟨mode, e, es, h⟩ | h <;> rw [h]
  · rfl
  · cases made <;> rfl

theorem settled_other {made : Entries} {x : Node} (h : settled made (some x) = x) (other : Entries) :
    settled made (some (settled other (some x))) = settled other (some x) := by
  rcases settled_cases other (some x) with ⟨mode, e, es, hother⟩ | hother
  · rw [hother]
    rfl
  rw [hother]
  cases other with
  | cons e other => rfl
  | nil =>
    rcases settled_cases made (some x) with ⟨mode, e, es, hmade⟩ | hmade
    · rw [← h, hmade] at hother
      cases hother
    · rw [hmade] at h
      subst h
      cases made with
      | nil => rfl
      | cons e made => cases hother

/-- The archive of a build is at its place, and will not be put there again. -/
def Stores (seat : Seat) (w : World) (tree : Node) (key : CheckoutKey)
    (archive : Option ArchiveHash) : Prop :=
  ∀ src made hash, archive = some hash → Lands tree key.path (some src) →
    Archive.Reaches tree src ([], made) →
      ∃ x, w.disk.root.get? (seat.archive hash.name) = some x ∧ settled made (some x) = x

/-- Every build of a key of this tree comes to this archive, whatever else there is. -/
def Vouches (site : Site) (seat : Seat) (base : Place) (key : CheckoutKey) (tree : Entries)
    (archive : Option ArchiveHash) : Prop :=
  ∀ (me : Nat) {w : World} {b : Builder} {build : Build} {σ : Scratch},
    Stage.Rides site seat base ⟨w, b, .locate build⟩ →
      Stage.Cloned site seat base w build tree σ → σ.purpose = .clone → w.scratches + 1 < 10 ^ 6 →
        build.key = key → Stage.Comes site seat me build (checkedOut tree) ⟨w, b, .locate build⟩
          (.ok ⟨key.commit, archive⟩)

/-- What is remembered of a key is what every build of it comes to, and the archive is there. -/
structure Knows (site : Site) (seat : Seat) (base : Place) (w : World) (key : CheckoutKey)
    (archive : Option ArchiveHash) : Prop where
  areas : ∀ a, w.disk.root.IsDirAt (seat.area a)
  tree : ∃ tree, w.Commits key.commit tree ∧ Vouches site seat base key tree archive ∧
    w.Stores seat (checkedOut tree) key archive

end World

namespace Stage.Leaves

open World

variable {tree : Node}

theorem stores (h : Leaves seat tree key' w w' r) (hw : w.Stores seat tree' key archive) :
    w'.Stores seat tree' key archive := by
  intro src made hash harchive hlands hmade
  obtain ⟨x, hx, hsettled⟩ := hw src made hash harchive hlands hmade
  cases h with
  | failed f hsame => exact ⟨x, (hsame _).trans hx, hsettled⟩
  | nothing hlands hsame => exact ⟨x, (hsame _).trans hx, hsettled⟩
  | @published src' made' hash' _ _ hplace hothers =>
    by_cases hname : hash.name = hash'.name
    · rw [hname] at hx ⊢
      rw [hx] at hplace
      exact ⟨_, hplace, settled_other hsettled made'⟩
    · exact ⟨x, (hothers _ hname).trans hx, hsettled⟩

theorem stores_self (h : Leaves seat tree key w w' (.ok ⟨key.commit, archive⟩)) :
    w'.Stores seat tree key archive := by
  intro src made hash harchive hlands hmade
  subst harchive
  cases h with
  | published hlands' hmade' hplace =>
    obtain rfl := Option.some.inj (hlands.unique hlands')
    obtain rfl := hmade.unique hmade'
    exact ⟨_, hplace, settled_settled ..⟩

theorem commit_eq {outcome : Outcome} (h : Leaves seat tree key w w' (.ok outcome)) :
    outcome = ⟨key.commit, outcome.archive⟩ := by
  cases h <;> rfl

theorem same_of_stores (h : Leaves seat tree key w w' (.ok ⟨key.commit, archive⟩))
    (hw : w.Stores seat tree key archive) : w.SameArchives seat w' := by
  cases h with
  | nothing _ hsame => exact hsame
  | @published src made hash hlands hmade hplace hothers =>
    intro n
    by_cases hn : n = hash.name
    · obtain ⟨x, hx, hsettled⟩ := hw src made hash rfl hlands hmade
      rw [hn, hplace, hx, hsettled]
    · exact hothers n hn

/-- Two builds that come to the same leave the same. -/
theorem same_of_concur (h : Leaves seat tree key w w' r) (h' : Leaves seat tree key v v' r')
    (hconcur : Concur Eq r r') (hsame : w.SameArchives seat v) : w'.SameArchives seat v' := by
  intro n
  cases hconcur with
  | error =>
    cases h with
    | failed _ hw =>
      cases h' with
      | failed _ hv => rw [hv, hsame, hw]
  | ok heq =>
    subst heq
    cases h with
    | nothing _ hw =>
      cases h' with
      | nothing _ hv => rw [hv, hsame, hw]
    | @published src made hash hlands hmade hplace hothers =>
      cases h' with
      | published hlands' hmade' hplace' hothers' =>
        obtain rfl := Option.some.inj (hlands.unique hlands')
        obtain rfl := hmade.unique hmade'
        by_cases hn : n = hash.name
        · rw [hn, hplace, hplace', hsame]
        · rw [hothers' n hn, hsame, hothers n hn]

end Stage.Leaves

namespace Stage

variable {me me' : Nat} {b b' : Builder} {build build' : Build} {σ σ' : Scratch} {path : String}

theorem Cloned.number_le (h : Cloned site seat base w build tree σ)
    (hs : Rides site seat base ⟨w, b, .locate build⟩) : σ.number ≤ w.scratches := by
  obtain ⟨τ, _, hm, -⟩ := h.tree
  have hcwd : w.disk.cwd = base := hs.cwd
  obtain rfl : σ = τ := hs.sound.world.seat.eq_of_path_eq (by rw [← hm.path, h.path, hcwd])
  exact hm.number

section

variable (hroom : seat.HasRoom) (hhome : ∀ n ∈ seat.home, n.length ≤ 255)
  (hnormal : Path.normalize path = .ok key.path)
  (hcontained : IsContained (World.checkedOut tree) key.path)
  (hs : Rides site seat base ⟨w, b, .locate build⟩) (hc : Cloned site seat base w build tree σ)
  (hσ : σ.purpose = .clone) (hfew : w.scratches + 1 < 10 ^ 6) (hkey : build.key = key)
include hroom hhome hnormal hcontained hs hc hσ hfew hkey

variable (me me') in
/-- Two builds of a key come to the same if both have made only so many scratch directories. -/
theorem Cloned.concurs (hs' : Rides site seat base ⟨w', b', .locate build'⟩)
    (hc' : Cloned site seat base w' build' tree σ') (hσ' : σ'.purpose = .clone)
    (hfew' : w'.scratches + 1 < 10 ^ 6) (hkey' : build'.key = key) :
    Concurs site seat me me' build build' (World.checkedOut tree) ⟨w, b, .locate build⟩
      ⟨w', b', .locate build'⟩ := by
  have hnumber := hc.number_le hs
  have hnumber' := hc'.number_le hs'
  subst hkey
  exact concurs_locate hroom hhome hkey'.symm hc hc'
    ⟨hσ.trans hσ'.symm, by omega, by omega⟩ hnormal hcontained hfew hfew' hs hs'

theorem Comes.vouches (hcomes : Comes site seat me build (World.checkedOut tree)
    ⟨w, b, .locate build⟩ (.ok ⟨key.commit, archive⟩)) :
    World.Vouches site seat base key tree archive := by
  intro me' w' b' build' σ' hs' hc' hσ' hfew' hkey'
  obtain ⟨r, r', hr, hr', hconcur⟩ := hc.concurs me me' hroom hhome hnormal hcontained
    hs hσ hfew hkey hs' hc' hσ' hfew' hkey'
  obtain rfl := hr.unique hcomes
  cases hconcur with
  | ok heq => exact heq ▸ hr'

end

end Stage

/-! ### The memo -/

theorem Builder.get?_built_error (b : Builder) (key other : CheckoutKey) (f : Failure) :
    (b.built key (.error f)).cache.get? other = b.cache.get? other := by
  rw [Cache.get?, Cache.get?]
  exact congrArg _ (Cache.entries_lockFor b.cache key)

theorem Builder.get?_built_ok (b : Builder) (key other : CheckoutKey) (archive : Option ArchiveHash) :
    (b.built key (.ok ⟨key.commit, archive⟩)).cache.get? other =
      if other = key then some archive else b.cache.get? other := by
  have hentries : (b.built key (.ok ⟨key.commit, archive⟩)).cache.entries =
      assocSet key archive b.cache.entries :=
    congrArg (assocSet key archive) (Cache.entries_lockFor b.cache key)
  rw [Cache.get?, hentries]
  split_ifs with hother
  · rw [hother, assoc?_assocSet_self]
  · rw [assoc?_assocSet_ne hother]
    rfl

namespace World.Knows

/-- What is known stays known when something else changes. -/
theorem sameCache (h : w.Knows site seat base key archive) (hsame : w.SameCache site seat v)
    (hcommits : ∀ tree, w.Commits key.commit tree → v.Commits key.commit tree) :
    v.Knows site seat base key archive := by
  obtain ⟨hareas, tree, htree, hvouches, hstores⟩ := h
  refine ⟨fun a => (Keeps.of_sameCache [] hsame).areas a (hareas a), tree, hcommits tree htree,
    hvouches, ?_⟩
  intro src made hash harchive hlands hmade
  obtain ⟨x, hx, hsettled⟩ := hstores src made hash harchive hlands hmade
  exact ⟨x, (Stage.entry_of_sameCache hsame .archives _).trans hx, hsettled⟩

theorem leaves (h : w.Knows site seat base key archive)
    (hleaves : Stage.Leaves seat tree' key' w v r) (hareas : ∀ a, v.disk.root.IsDirAt (seat.area a))
    (hcommits : v.commits = w.commits) : v.Knows site seat base key archive := by
  obtain ⟨-, tree, htree, hvouches, hstores⟩ := h
  exact ⟨hareas, tree, htree.of_commits_eq hcommits, hvouches, hleaves.stores hstores⟩

end World.Knows

/-! ### A builder that lags behind -/

theorem World.SameCache.withScratches (h : w.SameCache site seat v) (n : Nat) :
    { w with scratches := n }.SameCache site seat { v with scratches := n } where
  sound := ⟨h.sound.tree, h.sound.seat, h.sound.commits, h.sound.undisturbed⟩
  cwd := h.cwd
  scratches := rfl
  below := h.below

/-- A depot, and one that is the same but for a builder that knows less. -/
structure Lags (site : Site) (seat : Seat) (base : Place) (w : World) (b : Builder) (w' : World)
    (b' : Builder) : Prop where
  world : w' = { w with scratches := w'.scratches }
  reached : Reached site seat w b
  reached' : Reached site seat w' b'
  cwd : w.disk.cwd = base
  ready : b'.isReady = true → b.isReady = true
  memo : ∀ key archive, b'.cache.get? key = some archive → b.cache.get? key = some archive
  known : ∀ key archive, b.cache.get? key = some archive → w.Knows site seat base key archive

/-- What comes of making sure that there is a repository. It is outside of the cache root, and where
one was made before, nothing changes. -/
structure Prepares (site : Site) (seat : Seat) (w : World) (b : Builder) (w₁ : World)
    (r : Except Failure Unit) : Prop where
  made : History.prepare site.repository w = (w₁, r)
  same : w.SameCache site seat w₁
  kept : b.isReady = true → w₁ = w ∧ r = .ok ()

namespace Prepares

variable {w₁ : World} {b b' : Builder} {r : Except Failure Unit}

theorem prepare (h : Prepares site seat w b w₁ (.ok ())) :
    Builder.prepare site w b = (w₁, { b with isReady := true }, .ok ()) := by
  rw [Builder.prepare]
  split_ifs with hready
  · rw [(h.kept hready).1]
    obtain ⟨cache, held, isReady⟩ := b
    obtain rfl : isReady = true := hready
    rfl
  · simp only [h.made]

theorem prepare_error {f : Failure} (h : Prepares site seat w b w₁ (.error f)) :
    b.isReady = false ∧ Builder.prepare site w b = (w₁, b, .error f) := by
  cases hready : b.isReady with
  | true => cases (h.kept hready).2
  | false =>
    refine ⟨rfl, ?_⟩
    rw [Builder.prepare, hready]
    simp only [h.made, Bool.false_eq_true, if_false]

/-- What a builder finds that lags behind. -/
theorem lagging (h : Prepares site seat w b w₁ r) (hlags : Lags site seat base w b w' b') :
    Prepares site seat w' b' { w₁ with scratches := w'.scratches } r := by
  have hw := (hlags.reached.isSound "" "").1.world
  rw [hlags.world]
  refine ⟨History.prepare_scratches hw.undisturbed h.made _, h.same.withScratches _, fun hready => ?_⟩
  obtain ⟨hsame, hr⟩ := h.kept (hlags.ready hready)
  exact ⟨by rw [hsame], hr⟩

end Prepares

/-- What the repository offers under the name of a branch stays the same, whatever is put into the
directories of the cache root. -/
def World.IsSteady (site : Site) (seat : Seat) (branch : String) (w : World) : Prop :=
  ∀ d, Workspace.ensure w.disk site.dirs = (d, .ok ()) →
    ∃ offer, { w with disk := d }.Offers seat site.repository branch offer

/-- What a builder finds when it looks for a branch. The branch is not there; or it is at a commit, can
be cloned at this commit, and no link of its tree that is followed leads out of it; or it cannot be
cloned, and nothing is known of it. -/
inductive Finds (site : Site) (seat : Seat) (cache : Cache) (branch normal : String) (w : World) : Prop
  | nothing {f : Failure} (htip : (History.tip site.repository branch w).2 = .error f)
  | commit {commit : CommitId} {tree : Entries} {scratch : Bytes} {w₁ : World}
    (htree : w.Commits commit tree) (hcontained : IsContained (World.checkedOut tree) normal)
    (hsteady : w.IsSteady site seat branch) (hfetch : w.Fetches site branch commit scratch w₁)
  | refused {commit : CommitId} {scratch : Bytes} {finished : Finished}
    (hunknown : cache.get? ⟨commit, normal⟩ = none) (hsteady : w.IsSteady site seat branch)
    (hrefuses : w.Refuses site branch commit scratch finished)

/-- The command that clones a branch names the directory last. -/
theorem GitRun.text_clone (repo : Bytes) (branch : String) :
    ∃ before, ∀ dest, (clone repo branch dest).command.text = before ++ Utf8.toStringLossy dest := by
  obtain ⟨words, hne, hwords⟩ : ∃ words : List Bytes, words ≠ [] ∧ ∀ dest,
      (Utf8.ofString "git" :: (clone repo branch dest).words) = words ++ [dest] := by
    refine ⟨Utf8.ofString "git" :: (["clone", "--quiet", "--local", "--shared", "--single-branch",
      "--no-tags", "--branch", branch, "--"].map Utf8.ofString ++ [repo]), by simp, fun dest => ?_⟩
    simp [words]
  refine ⟨String.ofList (joinWith [' '] (words.map (String.toList ∘ Utf8.toStringLossy)) ++ [' ']),
    fun dest => ?_⟩
  rw [command, Command.text, hwords, spaced, List.map_map, List.map_append,
    joinWith_append _ (by simpa using hne) (by simp)]
  simp [joinWith, String.ofList_append, String.append_assoc]

theorem World.Refuses.alike {branch : String} {commit : CommitId} {scratch scratch' : Bytes} {n : Nat}
    {finished : Finished} (h : w.Refuses site branch commit scratch finished)
    (h' : { w with scratches := n }.Refuses site branch commit scratch' finished)
    (hfew : w.scratches + 1 < 10 ^ 6) (hfew' : n + 1 < 10 ^ 6) :
    (Build.refusal site branch scratch finished).Alike
      (Build.refusal site branch scratch' finished) := by
  obtain ⟨d, v, -, hdirs, hmake, -⟩ := h.clone
  obtain ⟨d', v', -, hdirs', hmake', -⟩ := h'.clone
  obtain rfl : d' = d := (Prod.mk.inj (hdirs'.symm.trans hdirs)).1
  have hpath := World.path_of_makeScratch .clone hmake
  have hpath' := World.path_of_makeScratch .clone hmake'
  have hkin : (⟨.clone, w.scratches + 1⟩ : Scratch).Kin ⟨.clone, n + 1⟩ := ⟨rfl, hfew, hfew'⟩
  have hrenamed : Renamed scratch scratch' := by
    dsimp only at hpath hpath'
    rw [hpath, hpath']
    exact .of_kin hkin site d'.cwd
  obtain ⟨before, htext⟩ := GitRun.text_clone site.repository branch
  rw [Build.refusal, Build.refusal, htext, htext]
  exact .command before _ _ (hrenamed.join _)

/-- What has come of one disk is one disk again if there are the same archives and nothing else. -/
theorem World.Stays.disk_unique (h : v.Stays seat w) (h' : v'.Stays seat w')
    (hdisk : v'.disk = v.disk) (hw : w.HoldsOnly site seat []) (hw' : w'.HoldsOnly site seat [])
    (harchives : w.SameArchives seat w') : w'.disk = w.disk := by
  have hstays : w.Stays seat { w' with commits := w.commits } := by
    refine ⟨h'.sound, ?_, rfl, fun other hother => ?_⟩
    · exact h'.cwd.trans ((congrArg Disk.cwd hdisk).trans h.cwd.symm)
    · rw [← h.around other hother, ← h'.around other hother, hdisk]
  refine hstays.disk_eq h.sound fun a n => ?_
  by_cases ha : a = .archives
  · exact ha ▸ harchives n
  · rw [hw.get?_eq_none ha]
    exact hw'.get?_eq_none ha n

namespace Lags

variable {w₁ w₁' : World} {b b' b₁ b₁' : Builder} {branch path normal : String} {commit : CommitId}

/-- Two checkouts come to the same, and one builder lags behind as before. -/
def Abreast (site : Site) (seat : Seat) (base : Place) (branch path : String) (w : World) (b : Builder)
    (w' : World) (b' : Builder) : Prop :=
  ∃ w₁ b₁ r w₁' b₁' r', Builder.Completes site seat w b branch path w₁ b₁ r ∧
    Builder.Completes site seat w' b' branch path w₁' b₁' r' ∧ Concur Eq r r' ∧
    Lags site seat base w₁ b₁ w₁' b₁'

theorem isSound (h : Lags site seat base w b w' b') (branch path : String) :
    (⟨w, b, .start branch path⟩ : Stage).IsSound site seat ∧
      (⟨w', b', .start branch path⟩ : Stage).IsSound site seat :=
  ⟨(h.reached.isSound branch path).1, (h.reached'.isSound branch path).1⟩

theorem abreast (h : Lags site seat base w b w' b')
    (hc : Builder.Completes site seat w b branch path w₁ b₁ r)
    (hc' : Builder.Completes site seat w' b' branch path w₁' b₁' r') (hconcur : Concur Eq r r')
    (hdisk : w₁'.disk = w₁.disk) (hcommits : w₁'.commits = w₁.commits)
    (hready : b₁'.isReady = true → b₁.isReady = true)
    (hmemo : ∀ key archive, b₁'.cache.get? key = some archive → b₁.cache.get? key = some archive)
    (hknown : ∀ key archive, b₁.cache.get? key = some archive →
      w₁.Knows site seat base key archive) :
    Abreast site seat base branch path w b w' b' := by
  have hreached := h.reached.checkout hc.goes
  have hreached' := h.reached'.checkout hc'.goes
  refine ⟨w₁, b₁, r, w₁', b₁', r', hc, hc', hconcur, ?_, hreached, hreached', ?_, hready, hmemo, hknown⟩
  · have hfaults : w₁.faults = [] := (hreached.isSound branch path).1.world.undisturbed
    have hfaults' : w₁'.faults = [] := (hreached'.isSound branch path).1.world.undisturbed
    obtain ⟨disk, commits, faults, scratches⟩ := w₁'
    obtain rfl : disk = w₁.disk := hdisk
    obtain rfl : commits = w₁.commits := hcommits
    obtain rfl : faults = [] := hfaults'
    rw [← hfaults]
  · exact (Stage.Goes.cwd hc.goes (h.isSound branch path).1).trans h.cwd

theorem known_prepared {result : Except Failure Unit} (h : Lags site seat base w b w' b')
    (hp : Prepares site seat w b w₁ result) (key : CheckoutKey) (archive : Option ArchiveHash)
    (hget : b.cache.get? key = some archive) : w₁.Knows site seat base key archive := by
  have hfaults := (h.isSound "" "").1.world.undisturbed
  exact (h.known key archive hget).sameCache hp.same fun tree htree =>
    htree.of_commits_eq (History.commits_of_prepare hfaults hp.made)

theorem abreast_unprepared {f : Failure} (h : Lags site seat base w b w' b')
    (hp : Prepares site seat w b w₁ (.error f)) (hnormal : Path.normalize path = .ok normal) :
    Abreast site seat base branch path w b w' b' := by
  obtain ⟨hready, hprepare⟩ := hp.prepare_error
  have hp' := hp.lagging h
  obtain ⟨hready', hprepare'⟩ := hp'.prepare_error
  have hc := Builder.completes_of_unprepared seat branch hnormal hprepare hp.same
  have hc' := Builder.completes_of_unprepared seat branch hnormal hprepare' hp'.same
  exact h.abreast hc hc' (.error (.same f)) rfl rfl h.ready h.memo (h.known_prepared hp)

section

variable (h : Lags site seat base w b w' b') (hp : Prepares site seat w b w₁ (.ok ()))
include h hp

variable (branch) in
theorem prepared (hnormal : Path.normalize path = .ok normal) :
    Builder.Prepared site seat w b branch path normal w₁ { b with isReady := true } ∧
      Builder.Prepared site seat w' b' branch path normal { w₁ with scratches := w'.scratches }
        { b' with isReady := true } :=
  ⟨⟨hnormal, hp.prepare, hp.same, (h.isSound branch path).1⟩,
    ⟨hnormal, (hp.lagging h).prepare, (hp.lagging h).same, (h.isSound branch path).2⟩⟩

theorem abreast_nothing (hnormal : Path.normalize path = .ok normal) {f : Failure}
    (htip : (History.tip site.repository branch w₁).2 = .error f) :
    Abreast site seat base branch path w b w' b' := by
  obtain ⟨hprep, hprep'⟩ := h.prepared branch hp hnormal
  have hf : w₁.faults = [] := hp.same.sound.undisturbed
  have hc := hprep.completes_of_tip (Prod.ext (History.tip_fst hf) htip)
  have hc' := hprep'.completes_of_tip
    (Prod.ext (History.tip_fst hf) ((History.tip_scratches hf _).trans htip))
  exact h.abreast hc hc' (.error (.same f)) rfl rfl (fun _ => rfl) h.memo (h.known_prepared hp)

theorem abreast_missed {key : CheckoutKey} {tree : Node} {d : Disk}
    (hdirs : Workspace.ensure w₁.disk site.dirs = (d, .ok ()))
    (hc : Builder.Completes site seat w b branch path v (Builder.built { b with isReady := true } key r) r)
    (hleaves : Stage.Leaves seat tree key w₁ v r) (hstays : { w₁ with disk := d }.Stays seat v)
    (hc' : Builder.Completes site seat w' b' branch path v'
      (Builder.built { b' with isReady := true } key r') r')
    (hleaves' : Stage.Leaves seat tree key { w₁ with scratches := w'.scratches } v' r')
    (hstays' : { w₁ with scratches := w'.scratches, disk := d }.Stays seat v') (hconcur : Concur Eq r r')
    (hlearned : ∀ archive, r = .ok ⟨key.commit, archive⟩ →
      (∀ a, v.disk.root.IsDirAt (seat.area a)) → v.Knows site seat base key archive) :
    Abreast site seat base branch path w b w' b' := by
  have hholds := (Stage.Goes.archives hc.goes (h.isSound branch path).1).1.holds
  have hholds' := (Stage.Goes.archives hc'.goes (h.isSound branch path).2).1.holds
  have hdisk : v'.disk = v.disk := hstays.disk_unique hstays' rfl hholds hholds'
    (hleaves.same_of_concur hleaves' hconcur fun _ => rfl)
  have hareas : ∀ a, v.disk.root.IsDirAt (seat.area a) := by
    intro a
    rw [Site.dirs_eq] at hdirs
    exact (hstays.around.isDirAt_area a).mp
      ((World.ensure_keeps [] hp.same.sound hdirs).2 rfl a (by cases a <;> simp))
  have hold := fun other archive' hknown =>
    (h.known_prepared hp other archive' hknown).leaves hleaves hareas hstays.commits
  refine h.abreast hc hc' hconcur hdisk (hstays'.commits.trans hstays.commits.symm) (fun _ => rfl)
    (fun other archive' hknown => ?_) (fun other archive' hknown => ?_)
  · cases hconcur with
    | error =>
      rw [Builder.get?_built_error] at hknown ⊢
      exact h.memo other archive' hknown
    | ok heq =>
      subst heq
      rw [hleaves.commit_eq, Builder.get?_built_ok] at hknown ⊢
      split_ifs at hknown ⊢
      · exact hknown
      · exact h.memo other archive' hknown
  · cases r with
    | error f =>
      rw [Builder.get?_built_error] at hknown
      exact hold other archive' hknown
    | ok outcome =>
      have houtcome := hleaves.commit_eq
      rw [houtcome, Builder.get?_built_ok] at hknown
      split_ifs at hknown with hother
      · obtain rfl := Option.some.inj hknown
        subst hother
        exact hlearned _ (congrArg _ houtcome) hareas
      · exact hold other archive' hknown

theorem holdsOnly : w₁.HoldsOnly site seat [] := by
  obtain ⟨hs, -⟩ := h.isSound "" ""
  exact World.HoldsOnly.of_get?_eq hs.holds hp.same.cwd fun a n => Stage.entry_of_sameCache hp.same a n

theorem isClear {d : Disk} (hdirs : Workspace.ensure w₁.disk site.dirs = (d, .ok ()))
    (hfew : w.scratches + 2 < 10 ^ 6) (hfew' : w'.scratches + 2 < 10 ^ 6) :
    w₁.IsClear site seat d ∧ { w₁ with scratches := w'.scratches }.IsClear site seat d := by
  have hholds := h.holdsOnly hp
  rw [← hp.same.scratches] at hfew
  exact ⟨⟨hp.same.sound, hholds, hdirs, by omega⟩,
    ⟨(hp.lagging h).same.sound, hholds, hdirs, by dsimp only; omega⟩⟩

section

variable (key : CheckoutKey) {scratch : Bytes} {w₂ : World}
  (hnormal : Path.normalize path = .ok key.path)
  (hfetch : w₁.Fetches site branch key.commit scratch w₂)

include hfetch in
theorem fetches (hroom : seat.HasRoom) (hsteady : w₁.IsSteady site seat branch)
    (hfew : w.scratches + 2 < 10 ^ 6) (hfew' : w'.scratches + 2 < 10 ^ 6) : ∃ scratch' w₂',
      { w₁ with scratches := w'.scratches }.Fetches site branch key.commit scratch' w₂' := by
  obtain ⟨d, -, -, -, hdirs, -⟩ := hfetch.clone
  obtain ⟨offer, hoffer⟩ := hsteady d hdirs
  obtain ⟨hclear, hclear'⟩ := h.isClear hp hdirs hfew hfew'
  exact World.Fetches.elsewhere hclear hclear' rfl hoffer hoffer
    (History.tip_of_scratches hclear.sound.undisturbed hfetch.tip _) hroom hfetch

include hnormal hfetch

theorem abreast_known (hget : b.cache.get? key = some archive)
    (hget' : b'.cache.get? key = some archive) : Abreast site seat base branch path w b w' b' := by
  obtain ⟨hprep, hprep'⟩ := h.prepared branch hp hnormal
  have hf : w₁.faults = [] := hp.same.sound.undisturbed
  have hc := hprep.completes_of_known hfetch.tip hget
  have hc' := hprep'.completes_of_known (History.tip_of_scratches hf hfetch.tip _) hget'
  exact h.abreast hc hc' (.ok rfl) rfl rfl (fun _ => rfl) h.memo (h.known_prepared hp)

variable {scratch' : Bytes} {w₂' : World}
  (hfetch' : { w₁ with scratches := w'.scratches }.Fetches site branch key.commit scratch' w₂')
include hfetch'

theorem abreast_relearned (hroom : seat.HasRoom) (hfew' : w'.scratches + 2 < 10 ^ 6)
    (hget : b.cache.get? key = some archive) (hget' : b'.cache.get? key = none) :
    Abreast site seat base branch path w b w' b' := by
  obtain ⟨hprep, hprep'⟩ := h.prepared branch hp hnormal
  obtain ⟨hareas, tree, htree, hvouches, hstores⟩ := h.known_prepared hp key archive hget
  have hw₁ := hp.same.sound
  have hfree' : b'.held.pairs = [] := (h.reached'.isSound "" "").2.2
  have hcwd' : w'.disk.cwd = base := by rw [h.world]; exact h.cwd
  have hc := hprep.completes_of_known hfetch.tip hget
  obtain ⟨hs, hcloned, hcount⟩ := hprep'.cloned hroom hfree' hget' hfetch' htree
  rw [hcwd'] at hs hcloned
  have hcomes := hvouches 0 hs hcloned rfl (by dsimp only at hcount; omega) rfl
  obtain ⟨v, hc', hleaves, d, hdirs, hstays⟩ := hprep'.built hfree' hget' hfetch' hcomes
  have hd : d = w₁.disk := by
    rw [Site.dirs_eq] at hdirs
    exact Workspace.ensure_eq_self hw₁ (fun a _ => hareas a) hdirs
  have hholds := (Stage.Goes.archives hc.goes (h.isSound branch path).1).1.holds
  have hholds' := (Stage.Goes.archives hc'.goes (h.isSound branch path).2).1.holds
  have hdisk : v.disk = w₁.disk := (World.Stays.refl hw₁.tree).disk_unique hstays hd hholds hholds'
    (hleaves.same_of_stores hstores)
  refine h.abreast hc hc' (.ok rfl) hdisk hstays.commits (fun _ => rfl) (fun other archive' hknown => ?_)
    (h.known_prepared hp)
  rw [Builder.get?_built_ok] at hknown
  split_ifs at hknown with hother
  · rw [hother, ← hknown]
    exact hget
  · exact h.memo other archive' hknown

theorem abreast_built (hroom : seat.HasRoom) (hhome : ∀ n ∈ seat.home, n.length ≤ 255)
    (htree : w₁.Commits key.commit tree)
    (hcontained : IsContained (World.checkedOut tree) key.path) (hfew : w.scratches + 2 < 10 ^ 6)
    (hfew' : w'.scratches + 2 < 10 ^ 6) (hget : b.cache.get? key = none)
    (hget' : b'.cache.get? key = none) : Abreast site seat base branch path w b w' b' := by
  obtain ⟨hprep, hprep'⟩ := h.prepared branch hp hnormal
  have hfree : b.held.pairs = [] := (h.reached.isSound "" "").2.2
  have hfree' : b'.held.pairs = [] := (h.reached'.isSound "" "").2.2
  have hcwd' : w'.disk.cwd = base := by rw [h.world]; exact h.cwd
  obtain ⟨hs, hcloned, hcount⟩ := hprep.cloned hroom hfree hget hfetch htree
  obtain ⟨hs', hcloned', hcount'⟩ := hprep'.cloned hroom hfree' hget' hfetch' htree
  rw [h.cwd] at hs hcloned
  rw [hcwd'] at hs' hcloned'
  rw [hp.same.scratches] at hcount
  have hlate : w₂.scratches + 1 < 10 ^ 6 := by omega
  have hlate' : w₂'.scratches + 1 < 10 ^ 6 := by dsimp only at hcount'; omega
  obtain ⟨r, r', hcomes, hcomes', hconcur⟩ := hcloned.concurs 0 0 hroom hhome hnormal
    hcontained hs rfl hlate rfl hs' hcloned' rfl hlate' rfl
  obtain ⟨v, hc, hleaves, d, hdirs, hstays⟩ := hprep.built hfree hget hfetch hcomes
  obtain ⟨v', hc', hleaves', d', hdirs', hstays'⟩ := hprep'.built hfree' hget' hfetch' hcomes'
  obtain rfl : d' = d := (Prod.mk.inj (hdirs'.symm.trans hdirs)).1
  refine h.abreast_missed hp hdirs hc hleaves hstays hc' hleaves' hstays' hconcur ?_
  rintro archive rfl hareas
  exact ⟨hareas, tree, htree.of_commits_eq hstays.commits,
    Stage.Comes.vouches hroom hhome hnormal hcontained hs hcloned rfl hlate rfl hcomes,
    hleaves.stores_self⟩

end

theorem abreast_refused (key : CheckoutKey) {scratch : Bytes} {finished : Finished}
    (hnormal : Path.normalize path = .ok key.path) (hsteady : w₁.IsSteady site seat branch)
    (hrefuses : w₁.Refuses site branch key.commit scratch finished)
    (hfew : w.scratches + 2 < 10 ^ 6) (hfew' : w'.scratches + 2 < 10 ^ 6)
    (hget : b.cache.get? key = none) (hget' : b'.cache.get? key = none) :
    Abreast site seat base branch path w b w' b' := by
  obtain ⟨hprep, hprep'⟩ := h.prepared branch hp hnormal
  have hfree : b.held.pairs = [] := (h.reached.isSound "" "").2.2
  have hfree' : b'.held.pairs = [] := (h.reached'.isSound "" "").2.2
  obtain ⟨scratch', hrefuses'⟩ : ∃ scratch',
      { w₁ with scratches := w'.scratches }.Refuses site branch key.commit scratch' finished := by
    obtain ⟨d, -, -, hdirs, -⟩ := hrefuses.clone
    obtain ⟨offer, hoffer⟩ := hsteady d hdirs
    obtain ⟨hclear, hclear'⟩ := h.isClear hp hdirs hfew hfew'
    exact World.Refuses.elsewhere hclear hclear' rfl hoffer hoffer
      (History.tip_of_scratches hclear.sound.undisturbed hrefuses.tip _) hrefuses
  obtain ⟨v, hc, hsame, d, hdirs, hstays⟩ := hprep.refused hfree hget hrefuses
  obtain ⟨v', hc', hsame', d', hdirs', hstays'⟩ := hprep'.refused hfree' hget' hrefuses'
  obtain rfl : d' = d := (Prod.mk.inj (hdirs'.symm.trans hdirs)).1
  have halike : (Build.refusal site branch scratch finished).Alike
      (Build.refusal site branch scratch' finished) := by
    rw [← hp.same.scratches] at hfew
    exact hrefuses.alike hrefuses' (by omega) (by omega)
  have hleaves : Stage.Leaves seat (.dir 0 []) key w₁ v
      (.error (Build.refusal site branch scratch finished)) := .failed _ hsame
  refine h.abreast_missed hp hdirs hc hleaves hstays hc'
    (.failed _ hsame') hstays' (.error halike) ?_
  rintro archive ⟨⟩

end

/-- Whatever the two builders find, they come to the same. -/
theorem checkout (h : Lags site seat base w b w' b') (hroom : seat.HasRoom)
    (hhome : ∀ n ∈ seat.home, n.length ≤ 255) (hfew : w.scratches + 2 < 10 ^ 6)
    (hfew' : w'.scratches + 2 < 10 ^ 6)
    (hserved : ∀ normal, Path.normalize path = .ok normal → ∃ w₁ result,
      Prepares site seat w b w₁ result ∧
        (result = .ok () → Finds site seat b.cache branch normal w₁)) :
    Abreast site seat base branch path w b w' b' := by
  cases hpath : Path.normalize path with
  | error f =>
    exact h.abreast (Builder.completes_of_refused hpath) (Builder.completes_of_refused hpath)
      (.error (.same f)) (by rw [h.world]) (by rw [h.world]) h.ready h.memo h.known
  | ok normal =>
    obtain ⟨w₁, result, hp, hfinds⟩ := hserved normal hpath
    cases result with
    | error f => exact h.abreast_unprepared hp hpath
    | ok _ =>
      cases hfinds rfl with
      | nothing htip => exact h.abreast_nothing hp hpath htip
      | @commit commit tree _ _ htree hcontained hsteady hfetch =>
        obtain ⟨_, _, hfetch'⟩ := h.fetches hp ⟨commit, normal⟩ hfetch hroom hsteady hfew hfew'
        cases hget : b.cache.get? ⟨commit, normal⟩ with
        | none =>
          cases hget' : b'.cache.get? ⟨commit, normal⟩ with
          | none =>
            exact h.abreast_built hp ⟨commit, normal⟩ hpath hfetch hfetch' hroom hhome htree
              hcontained hfew hfew' hget hget'
          | some archive => cases hget.symm.trans (h.memo _ archive hget')
        | some archive =>
          cases hget' : b'.cache.get? ⟨commit, normal⟩ with
          | none =>
            exact h.abreast_relearned hp ⟨commit, normal⟩ hpath hfetch hfetch' hroom hfew'
              hget hget'
          | some archive' =>
            obtain rfl := Option.some.inj ((h.memo _ archive' hget').symm.trans hget)
            exact h.abreast_known hp ⟨commit, normal⟩ hpath hfetch hget hget'
      | @refused commit _ finished hunknown hsteady hrefuses =>
        have hunknown' : b'.cache.get? ⟨commit, normal⟩ = none := by
          refine Option.eq_none_iff_forall_ne_some.mpr fun archive hget => ?_
          cases hunknown.symm.trans (h.memo _ archive hget)
        exact h.abreast_refused hp ⟨commit, normal⟩ hpath hsteady hrefuses hfew hfew' hunknown
          hunknown'

theorem restart (h : Lags site seat base w b w' b') : Lags site seat base w b w' {} where
  world := h.world
  reached := h.reached
  reached' := h.reached'.restart
  cwd := h.cwd
  ready := nofun
  memo := nofun
  known := h.known

theorem outside (h : Lags site seat base w b w' b') (hsame : w.SameCache site seat v)
    (hcommits : ∀ commit tree, w.Commits commit tree → v.Commits commit tree) :
    Lags site seat base v b { v with scratches := w'.scratches } b' where
  world := rfl
  reached := h.reached.outside hsame
  reached' := by
    have hsame' := hsame.withScratches w'.scratches
    rw [← h.world] at hsame'
    exact h.reached'.outside hsame'
  cwd := hsame.cwd.trans h.cwd
  ready := h.ready
  memo := h.memo
  known := fun key archive hget => (h.known key archive hget).sameCache hsame (hcommits key.commit)

end Lags

end

end Depot
