import Depot.Proofs.Checkout.Progress

/-!
What a build changes before it has an archive: nothing but what is in its own scratch directories.
When these are removed, all is as it was.
-/

namespace Depot

open Files Fingerprint

variable {site : Site} {seat : Seat} {owned : List Bytes} {w w' : World}

namespace Files.Disk

variable {d : Disk} {home names : Place} {n : Name} {base path : Bytes}

/-- What a path of short names says, if it is short itself. -/
theorem LeadsTo.find_names (h : d.LeadsTo base home) (hpath : Spells base (names ++ [n]) path)
    (hlen : ∀ m ∈ names ++ [n], m.length ≤ 255) (hlimit : path.length ≤ pathLimit)
    (hdir : d.root.IsDirAt (home ++ names)) :
    d.find false path = .ok ⟨home ++ names ++ [n], d.root.get? (home ++ names ++ [n])⟩ := by
  obtain ⟨links, hwalks⟩ := h.walks
  have hwalk : walk d.root false linkLimit (d.startPlace path) (hops path) =
      walk d.root false links (home ++ names) [.name n] := by
    rw [startPlace, hpath.absolute, ← hpath.hops.walk_eq, List.map_append]
    refine (hwalks d.root .refl h.dir false _ (.inr (by simp))).trans ?_
    exact walk_names (fun m hm => hlen m (List.mem_append_left _ hm)) hdir false links _
  have hn : ¬ n.length > 255 := Nat.not_lt.mpr (hlen n (by simp))
  rw [Disk.find, if_neg (by omega), go_eq hpath.ne_nil hpath.nul, hwalk, walk_name hdir, if_neg hn]
  cases hx : d.root.get? (home ++ names ++ [n]) with
  | none => simp
  | some x =>
    cases x with
    | link target => simp
    | _ => exact walk_nil hx

end Files.Disk

/-- All that has changed is in some scratch directories. -/
structure World.Touches (site : Site) (seat : Seat) (owned : List Bytes) (w w' : World) : Prop where
  disk : w.disk.ChangedIn site seat owned w'.disk
  commits : w'.commits = w.commits

namespace World

namespace Touches

theorem refl (h : w.disk.root.IsSound) : w.Touches site seat owned w :=
  ⟨⟨h, rfl, fun _ _ => rfl⟩, rfl⟩

theorem trans {w'' : World} (h : w.Touches site seat owned w')
    (h' : w'.Touches site seat owned w'') : w.Touches site seat owned w'' :=
  ⟨h.disk.trans h'.disk, h'.commits.trans h.commits⟩

theorem mono {owned' : List Bytes} (h : w.Touches site seat owned w')
    (hsub : ∀ path ∈ owned, path ∈ owned') : w.Touches site seat owned' w' :=
  ⟨⟨h.disk.sound, h.disk.cwd, fun other hother =>
    h.disk.look other fun σ hσ => hother σ (hsub _ hσ)⟩, h.commits⟩

end Touches

theorem IsSound.touches (hw : w.IsSound site seat) {path : Bytes} {σ : Scratch}
    (hm : w.Made site seat path σ) {rest : Place} (hrest : ∀ n ∈ rest, IsName n)
    {f : Option Node → Option Node}
    (hf : ∀ node? : Option Node, (∀ node ∈ node?, node.IsSound) → ∀ x ∈ f node?, x.IsSound) :
    w.Touches site seat [path] { w with disk := w.disk.alter (seat.scratch σ ++ rest) f } :=
  ⟨hw.changedIn (List.mem_singleton.mpr hm.path.symm) (hm.areas _) hrest hf, rfl⟩

theorem makeScratch_touches (hw : w.IsSound site seat)
    (hareas : ∀ a, w.disk.root.IsDirAt (seat.area a)) (purpose : Purpose) {r : Except Errno Bytes}
    (h : w.makeScratch (site.areaPath purpose.area) purpose.word = (w', r)) :
    (∃ e, r = .error e ∧ w' = w) ∨ ∃ σ : Scratch, r = .ok (σ.path site w.disk.cwd) ∧
      w.disk.root.get? (seat.scratch σ) = none ∧ (σ.path site w.disk.cwd).length ≤ Disk.pathLimit ∧
      w.Touches site seat [σ.path site w.disk.cwd] w' := by
  let σ : Scratch := ⟨purpose, w.scratches + 1⟩
  have hdir : w.disk.root.IsDirAt (seat.area σ.purpose.area) := hareas purpose.area
  have hname := hw.seat.names_scratch hdir
  unfold makeScratch at h
  dsimp only at h
  split at h
  case h_2 e _ =>
    obtain ⟨rfl, rfl⟩ := Prod.mk.inj h
    exact .inl ⟨e, rfl, rfl⟩
  case h_1 d' hmade =>
    have hd : w.disk.makeDir (σ.path site w.disk.cwd) 0o700 = .ok d' := hmade
    obtain ⟨rfl, rfl⟩ := Prod.mk.inj h
    have hlimit : (σ.path site w.disk.cwd).length ≤ Disk.pathLimit := by
      by_contra hlong
      rw [Disk.makeDir, if_pos (by omega)] at hd
      cases hd
    rcases hname.makeDir_cases 0o700 with hmake | ⟨hnone, -, hmake⟩ | ⟨-, hmake⟩
    · rw [hmake] at hd
      cases hd
    · rw [hmake] at hd
      obtain rfl := Except.ok.inj hd
      have hself : σ.path site w.disk.cwd ∈ [σ.path site w.disk.cwd] := List.mem_singleton.mpr rfl
      have hchanged := hw.changedIn hself hdir (List.forall_mem_nil _)
        (f := fun _ => some (.dir 0o700 [])) (fun _ _ _ hx => Option.some.inj hx ▸ isSound_empty 0o700)
      rw [List.append_nil] at hchanged
      exact .inr ⟨σ, rfl, hnone, hlimit, hchanged, rfl⟩
    · rw [hmake] at hd
      cases hd

theorem dropScratch_touches (hw : w.IsSound site seat) {path : Bytes} {σ : Scratch}
    (hm : w.Made site seat path σ) (hlimit : path.length ≤ Disk.pathLimit) :
    w.Touches site seat [path] (w.dropScratch path) ∧
      (w.dropScratch path).disk.root.get? (seat.scratch σ) = none := by
  obtain ⟨base, hl, he⟩ := hw.seat.extends_scratch σ
  have hdir : w.disk.root.IsDirAt (seat.home ++ (seat.names ++ [σ.purpose.area.name])) := by
    rw [Seat.home_append_names]
    exact hm.areas _
  have hfind := hl.find_names he.spells hm.length (hm.path ▸ hlimit) hdir
  rw [Seat.home_append_names] at hfind
  change w.disk.find false (σ.path site w.disk.cwd) =
    .ok ⟨seat.scratch σ, w.disk.root.get? (seat.scratch σ)⟩ at hfind
  cases hx : w.disk.root.get? (seat.scratch σ) with
  | none =>
    have hremove : w.disk.remove path = .error .notFound := by
      rw [Disk.remove, hm.path, hfind, hx]
      rfl
    rw [dropScratch, hremove]
    exact ⟨.refl hw.tree, hx⟩
  | some x =>
    have hremove : w.disk.remove path = .ok (w.disk.alter (seat.scratch σ) fun _ => none) := by
      rw [Disk.remove, hm.path, hfind, hx]
      rfl
    have htouches := hw.touches hm (List.forall_mem_nil _) (f := fun _ => none) (by simp)
    rw [List.append_nil] at htouches
    rw [dropScratch, hremove]
    refine ⟨htouches, ?_⟩
    have habove : w.disk.root.IsDirAt (seat.scratch σ).dropLast := by
      simpa [Seat.scratch, Seat.entry] using hm.areas σ.purpose.area
    exact Disk.get?_alter_self hw.tree (by simp [Seat.scratch, Seat.entry]) habove fun _ => none

theorem clone_touches (hw : w.IsSound site seat) {scratch repo : Bytes} {branch : String}
    {r : Except Failure Unit} (hx : w.Has site seat scratch fun x => ∃ mode, x = .dir mode [])
    (h : History.clone repo branch (Build.checkout scratch) w = (w', r)) :
    w.Touches site seat [scratch] w' := by
  obtain ⟨σ, _, hm, hget, mode, rfl⟩ := hx
  obtain ⟨base, hl, he⟩ := hw.seat.extends_scratch σ
  have hplace : seat.scratch σ ++ [Phase.checkoutName] = seat.home ++
      (seat.names ++ [σ.purpose.area.name] ++ [σ.name] ++ [Phase.checkoutName]) := by
    simp [Seat.scratch, Seat.entry, Seat.area, Seat.top]
  have hscratch : seat.scratch σ = seat.home ++ (seat.names ++ [σ.purpose.area.name] ++ [σ.name]) := by
    simp [Seat.scratch, Seat.entry, Seat.area, Seat.top]
  rw [← hm.path] at he
  rw [hscratch] at hget
  rcases History.of_clone hw.undisturbed h with ⟨rfl, -⟩ | ⟨finished, hclone, -⟩
  · exact .refl hw.tree
  rcases clone_cases hw.tree hw.commits hl (by simp) he isName_checkoutName hm.length hget hplace
    hclone with ⟨rfl, -⟩ | ⟨es, hes, rfl, -⟩
  · exact .refl hw.tree
  · have hrest : ∀ m ∈ [Phase.checkoutName], IsName m := by simpa using isName_checkoutName
    have hfirst := hw.touches hm hrest (f := fun _ => some (.dir 0o755 []))
      (fun _ _ _ hx => Option.some.inj hx ▸ isSound_empty 0o755)
    have hkeeps := Keeps.of_changedIn hw hfirst.disk
    exact hfirst.trans (hkeeps.sound.touches (hm.keeps hkeeps) hrest
      (f := fun _ => some (.dir 0o755 es)) (fun _ _ _ hx => Option.some.inj hx ▸ hes))

theorem strip_touches (hw : w.IsSound site seat) {scratch : Bytes} {d' : Disk}
    (hx : w.Has site seat scratch (·.IsDirAt [Phase.checkoutName]))
    (h : w.disk.remove (Path.below (Build.checkout scratch) [Repository.gitName]) = .ok d') :
    w.Touches site seat [scratch] { w with disk := d' } := by
  obtain ⟨σ, x, hm, hget, hdir⟩ := hx
  have hcheckout : w.disk.root.IsDirAt (seat.scratch σ ++ [Phase.checkoutName]) := by
    obtain ⟨mode, es, hx⟩ := hdir
    exact ⟨mode, es, by rw [Node.get?_append, hget]; exact hx⟩
  have hleads := hw.leads_checkout hm hcheckout
  have hname := hleads.name isName_gitName
    (spells_below hleads.ne_nil hleads.nul (by simp) (by simpa using isName_gitName))
  rcases hname.remove_cases with ⟨e, herror⟩ | ⟨-, -, hok⟩
  · rw [herror] at h
    cases h
  · rw [hok] at h
    obtain rfl := Except.ok.inj h
    have hrest : ∀ m ∈ [Phase.checkoutName, Repository.gitName], IsName m := by
      simpa using ⟨isName_checkoutName, isName_gitName⟩
    have ht := hw.touches hm hrest (f := fun _ => none) (by simp)
    rwa [List.append_cons] at ht

/-- The directories of clones and of archives being built hold some scratch directories at most. -/
def HoldsOnly (site : Site) (seat : Seat) (w : World) (paths : List Bytes) : Prop :=
  ∀ a n x, a ≠ .archives → w.disk.root.get? (seat.entry a n) = some x →
    ∃ σ : Scratch, σ.path site w.disk.cwd ∈ paths ∧ seat.entry a n = seat.scratch σ

namespace HoldsOnly

variable {paths : List Bytes}

theorem mono {paths' : List Bytes} (h : w.HoldsOnly site seat paths)
    (hsub : ∀ path ∈ paths, path ∈ paths') : w.HoldsOnly site seat paths' := by
  intro a n x ha hx
  obtain ⟨σ, hσ, heq⟩ := h a n x ha hx
  exact ⟨σ, hsub _ hσ, heq⟩

theorem of_get?_eq (h : w.HoldsOnly site seat paths) (hcwd : w'.disk.cwd = w.disk.cwd)
    (hentry : ∀ a n, w'.disk.root.get? (seat.entry a n) = w.disk.root.get? (seat.entry a n)) :
    w'.HoldsOnly site seat paths := by
  intro a n x ha hx
  rw [hentry] at hx
  obtain ⟨σ, hσ, heq⟩ := h a n x ha hx
  exact ⟨σ, hcwd ▸ hσ, heq⟩

/-- What is done in a scratch directory may bring it about. -/
theorem touches (h : w.HoldsOnly site seat paths) (hs : w.disk.root.IsSound)
    (ht : w.Touches site seat owned w') : w'.HoldsOnly site seat (owned ++ paths) := by
  intro a n x ha hx
  by_cases howned : ∃ σ : Scratch, σ.path site w.disk.cwd ∈ owned ∧ seat.entry a n = seat.scratch σ
  · obtain ⟨σ, hσ, heq⟩ := howned
    exact ⟨σ, ht.disk.cwd ▸ List.mem_append_left _ hσ, heq⟩
  · have hsame : w'.disk.root.get? (seat.entry a n) = w.disk.root.get? (seat.entry a n) := by
      refine Node.get?_eq_of_look_eq ht.disk.sound hs fun rest => ht.disk.look _ fun σ hσ hp => ?_
      obtain ⟨harea, hname⟩ := Seat.eq_of_entry_append hp
      exact howned ⟨σ, hσ, by rw [Seat.scratch, harea, hname]⟩
    rw [hsame] at hx
    obtain ⟨σ, hσ, heq⟩ := h a n x ha hx
    exact ⟨σ, ht.disk.cwd ▸ List.mem_append_right _ hσ, heq⟩

theorem tail {path : Bytes} {σ : Scratch} (h : w.HoldsOnly site seat (path :: paths))
    (hw : w.IsSound site seat) (hpath : path = σ.path site w.disk.cwd)
    (hnone : w.disk.root.get? (seat.scratch σ) = none) : w.HoldsOnly site seat paths := by
  intro a n x ha hx
  obtain ⟨τ, hτ, heq⟩ := h a n x ha hx
  rcases List.mem_cons.mp hτ with hτ | hτ
  · obtain rfl := hw.seat.eq_of_path_eq (hτ.trans hpath)
    rw [heq, hnone] at hx
    cases hx
  · exact ⟨τ, hτ, heq⟩

end HoldsOnly

theorem ensure_entry (hw : w.IsSound site seat) {areas : List Area} {d' : Disk}
    {r : Except Failure Unit} (h : Workspace.ensure w.disk (areas.map site.areaPath) = (d', r))
    (a : Area) (n : Name) : d'.root.get? (seat.entry a n) = w.disk.root.get? (seat.entry a n) := by
  induction areas generalizing w with
  | nil =>
    obtain ⟨rfl, rfl⟩ := Prod.mk.inj h
    rfl
  | cons b areas ih =>
    rw [List.map_cons, Workspace.ensure] at h
    cases hmake : w.disk.makeDirs (site.areaPath b) with
    | error e =>
      rw [hmake] at h
      obtain ⟨rfl, rfl⟩ := Prod.mk.inj h
      rfl
    | ok d =>
      rw [hmake] at h
      obtain ⟨hg, hseat⟩ := hw.seat.grown hw.tree hmake
      rw [ih (hw.withDisk hg.sound hseat) h]
      refine Node.get?_eq_of_look_eq hg.sound hw.tree fun rest => ?_
      rcases hg.grown (seat.entry a n ++ rest) with heq | ⟨-, -, part, hpart, heq⟩
      · exact heq
      · exact absurd (heq ▸ List.prefix_append _ _) (Seat.entry_not_above hpart)

end World

namespace Phase

/-- What a step of a build does before there is an archive. -/
structure Builds (site : Site) (seat : Seat) (w w' : World) (job : Job) (p p' : Phase) : Prop where
  touches : w.Touches site seat (p.scratches ++ p'.scratches) w'
  next : p'.job? = some job ∨ ∃ result, p' = discard job p.scratches result
  kept : ∀ path ∈ p.scratches, path ∈ p'.scratches
  fresh : ∀ path ∈ p'.scratches, path ∈ p.scratches ∨ path.length ≤ Disk.pathLimit ∧
    ∃ σ : Scratch, path = σ.path site w.disk.cwd ∧ w.disk.root.get? (seat.scratch σ) = none

namespace Builds

variable {job : Job} {p p' : Phase}

theorem of_touches (ht : w.Touches site seat owned w') (howned : ∀ path ∈ owned, path ∈ p.scratches)
    (hsame : p'.scratches = p.scratches) (hjob : p'.job? = some job) :
    Builds site seat w w' job p p' :=
  ⟨ht.mono fun path hpath => List.mem_append_left _ (howned path hpath), .inl hjob,
    fun _ hpath => hsame ▸ hpath, fun _ hpath => .inl (hsame ▸ hpath)⟩

theorem of_ended (ht : w.Touches site seat owned w') (howned : ∀ path ∈ owned, path ∈ p.scratches)
    (job : Job) (result : Except Failure Outcome) :
    Builds site seat w w' job p (discard job p.scratches result) :=
  ⟨ht.mono fun path hpath => List.mem_append_left _ (howned path hpath), .inr ⟨result, rfl⟩,
    fun _ hpath => hpath, fun _ hpath => .inl hpath⟩

theorem of_new {σ : Scratch} (ht : w.Touches site seat [σ.path site w.disk.cwd] w')
    (hnone : w.disk.root.get? (seat.scratch σ) = none)
    (hlimit : (σ.path site w.disk.cwd).length ≤ Disk.pathLimit)
    (hp' : p'.scratches = σ.path site w.disk.cwd :: p.scratches) (hjob : p'.job? = some job) :
    Builds site seat w w' job p p' where
  touches := ht.mono (by simp [hp'])
  next := .inl hjob
  kept := by simp +contextual [hp']
  fresh path hpath := by
    rw [hp'] at hpath
    rcases List.mem_cons.mp hpath with rfl | hpath
    · exact .inr ⟨hlimit, σ, rfl, hnone⟩
    · exact .inl hpath

end Builds

section steps

variable {me : Nat} {b b' : Builder} {job : Job} {build : Build} {p' : Phase}

theorem openScratch_builds (hw : w.IsSound site seat) (hp : (openScratch job).IsSound site seat w)
    (h : (openScratch job).step site me w b = (w', b', p')) :
    b' = b ∧ Builds site seat w w' job (openScratch job) p' := by
  unfold step at h
  dsimp only at h
  cases hmake : w.makeScratch site.cloneArea "clone-" with
  | mk w₁ r =>
  rcases World.makeScratch_touches hw hp.ready .clone hmake with
    ⟨e, rfl, rfl⟩ | ⟨σ, rfl, hnone, hlimit, ht⟩
  · simp only [hmake] at h
    obtain ⟨rfl, rfl, rfl⟩ := Prod.mk.inj h
    exact ⟨rfl, .of_ended (.refl hw.tree) (List.forall_mem_nil _) _ _⟩
  · simp only [hmake] at h
    obtain ⟨rfl, rfl, rfl⟩ := Prod.mk.inj h
    exact ⟨rfl, .of_new ht hnone hlimit rfl rfl⟩

theorem clone_builds {scratch : Bytes} (hw : w.IsSound site seat)
    (hp : (clone job scratch).IsSound site seat w)
    (h : (clone job scratch).step site me w b = (w', b', p')) :
    b' = b ∧ Builds site seat w w' job (clone job scratch) p' := by
  unfold step at h
  dsimp only at h
  cases hrun : History.clone site.repository job.branch (Build.checkout scratch) w with
  | mk w₁ r =>
  have ht := World.clone_touches hw hp.ready hrun
  rw [hrun] at h
  cases r with
  | error f =>
    obtain ⟨rfl, rfl, rfl⟩ := Prod.mk.inj h
    exact ⟨rfl, .of_ended ht (by simp [scratches]) _ _⟩
  | ok u =>
    obtain ⟨rfl, rfl, rfl⟩ := Prod.mk.inj h
    exact ⟨rfl, .of_touches ht (by simp [scratches]) rfl rfl⟩

theorem strip_builds (hw : w.IsSound site seat) (hp : (strip build).IsSound site seat w)
    (h : (strip build).step site me w b = (w', b', p')) :
    b' = b ∧ Builds site seat w w' build.job (strip build) p' := by
  unfold step at h
  dsimp only at h
  cases hremove : w.disk.remove (Path.below (Build.checkout build.scratch) [Repository.gitName]) with
  | error e =>
    simp only [hremove] at h
    obtain ⟨rfl, rfl, rfl⟩ := Prod.mk.inj h
    exact ⟨rfl, .of_ended (.refl hw.tree) (List.forall_mem_nil _) _ _⟩
  | ok d =>
    simp only [hremove] at h
    obtain ⟨rfl, rfl, rfl⟩ := Prod.mk.inj h
    exact ⟨rfl, .of_touches (World.strip_touches hw hp.ready hremove) (by simp [scratches]) rfl rfl⟩

theorem openWorkspace_builds {source : Bytes} (hw : w.IsSound site seat)
    (hp : (openWorkspace build source).IsSound site seat w)
    (h : (openWorkspace build source).step site me w b = (w', b', p')) :
    b' = b ∧ Builds site seat w w' build.job (openWorkspace build source) p' := by
  unfold step at h
  dsimp only at h
  obtain ⟨τ, hm⟩ := hp.made build.scratch (by simp [scratches])
  cases hmake : w.makeScratch site.workArea "archive-" with
  | mk w₁ r =>
  rcases World.makeScratch_touches hw hm.areas .work hmake with
    ⟨e, rfl, rfl⟩ | ⟨σ, rfl, hnone, hlimit, ht⟩
  · simp only [hmake] at h
    obtain ⟨rfl, rfl, rfl⟩ := Prod.mk.inj h
    exact ⟨rfl, .of_ended (.refl hw.tree) (List.forall_mem_nil _) _ _⟩
  · simp only [hmake] at h
    obtain ⟨rfl, rfl, rfl⟩ := Prod.mk.inj h
    exact ⟨rfl, .of_new ht hnone hlimit rfl rfl⟩

theorem copy_builds {route : Archive.Route} {tasks : List Archive.Task} (hw : w.IsSound site seat)
    (hp : (copy build route tasks).IsSound site seat w)
    (h : (copy build route tasks).step site me w b = (w', b', p')) :
    b' = b ∧ Builds site seat w w' build.job (copy build route tasks) p' := by
  obtain ⟨σ, hm, hu⟩ := hp.ready
  cases tasks with
  | nil =>
    obtain ⟨rfl, rfl, rfl⟩ := Prod.mk.inj h
    exact ⟨rfl, .of_touches (.refl hw.tree) (List.forall_mem_nil _) rfl rfl⟩
  | cons task rest =>
    unfold step at h
    dsimp only at h
    cases htake : Archive.Copying.take ⟨w.disk, {}⟩ route task with
    | mk c r =>
    have heffect := Archive.Copying.effect_of_take (c := ⟨w.disk, {}⟩) hu.sound hu.leads
      (hu.ready task List.mem_cons_self) htake
    obtain ⟨hsound, hsame, hcwd⟩ := hu.sameOff_effect heffect
    have ht : w.Touches site seat [route.dest] { w with disk := c.disk } :=
      ⟨.of_sameOff (List.mem_singleton.mpr hm.path.symm) hsound hcwd hsame, rfl⟩
    rw [htake] at h
    cases r with
    | error f =>
      obtain ⟨rfl, rfl, rfl⟩ := Prod.mk.inj h
      exact ⟨rfl, .of_ended ht (by simp [scratches]) _ _⟩
    | ok more =>
      obtain ⟨rfl, rfl, rfl⟩ := Prod.mk.inj h
      exact ⟨rfl, .of_touches ht (by simp [scratches]) rfl rfl⟩

theorem share_builds {workspace : Bytes} {hash : ArchiveHash} (hw : w.IsSound site seat)
    (hp : (share build workspace hash).IsSound site seat w)
    (h : (share build workspace hash).step site me w b = (w', b', p')) :
    b' = b ∧ Builds site seat w w' build.job (share build workspace hash) p' := by
  unfold step at h
  dsimp only at h
  obtain ⟨σ, x, hm, hget, hdir, -⟩ := hp.ready
  have hleads := hw.seat.leads_scratch hm.length (.of_isDir hget (by simp [hdir]))
  rw [← hm.path] at hleads
  rcases hleads.setMode_cases 0o755 with ⟨e, hset⟩ | ⟨old, es, hget', hset⟩
  · simp only [hset] at h
    obtain ⟨rfl, rfl, rfl⟩ := Prod.mk.inj h
    exact ⟨rfl, .of_ended (.refl hw.tree) (List.forall_mem_nil _) _ _⟩
  · simp only [hset] at h
    obtain ⟨rfl, rfl, rfl⟩ := Prod.mk.inj h
    have hsound : (Node.dir 0o755 es).IsSound :=
      Node.isSound_dir_iff.mpr (Node.isSound_dir_iff.mp (hw.tree.get? hget'))
    have ht := hw.touches hm (List.forall_mem_nil _) (f := fun _ => some (.dir 0o755 es))
      (fun _ _ _ hx => Option.some.inj hx ▸ hsound)
    rw [List.append_nil] at ht
    exact ⟨rfl, .of_touches ht (by simp [scratches]) rfl rfl⟩

theorem look_builds {p : Phase} (hw : w.IsSound site seat) (hjob : p'.job? = some job)
    (hsame : p'.scratches = p.scratches) : Builds site seat w w job p p' :=
  .of_touches (.refl hw.tree) (List.forall_mem_nil _) hsame hjob

theorem step_builds {p : Phase} (hw : w.IsSound site seat) (hp : p.IsSound site seat w)
    (hjob : p.job? = some job) (hmake : ∀ job, p ≠ makeDirs job)
    (hpublish : ∀ build workspace hash, p ≠ publish build workspace hash)
    (h : p.step site me w b = (w', b', p')) : b' = b ∧ Builds site seat w w' job p p' := by
  have hended : ∀ result, Builds site seat w w job p (discard job p.scratches result) :=
    fun result => .of_ended (.refl hw.tree) (List.forall_mem_nil _) _ result
  cases p
  case openScratch =>
    obtain rfl := Option.some.inj hjob
    exact openScratch_builds hw hp h
  case clone =>
    obtain rfl := Option.some.inj hjob
    exact clone_builds hw hp h
  case readHead job' scratch =>
    obtain rfl : job' = job := Option.some.inj hjob
    unfold step at h
    dsimp only at h
    cases hhead : History.head (Build.checkout scratch) w with
    | mk w₁ r =>
    obtain rfl : w₁ = w := by rw [← History.head_fst hw.undisturbed, hhead]
    rw [hhead] at h
    cases r <;> obtain ⟨rfl, rfl, rfl⟩ := Prod.mk.inj h
    · exact ⟨rfl, hended _⟩
    · exact ⟨rfl, look_builds hw rfl rfl⟩
  case strip =>
    obtain rfl := Option.some.inj hjob
    exact strip_builds hw hp h
  case locate build =>
    obtain rfl : build.job = job := Option.some.inj hjob
    unfold step at h
    dsimp only at h
    split at h <;> obtain ⟨rfl, rfl, rfl⟩ := Prod.mk.inj h
    · exact ⟨rfl, hended _⟩
    · exact ⟨rfl, hended _⟩
    · exact ⟨rfl, look_builds hw rfl rfl⟩
  case openWorkspace =>
    obtain rfl := Option.some.inj hjob
    exact openWorkspace_builds hw hp h
  case openSource build route =>
    obtain rfl : build.job = job := Option.some.inj hjob
    unfold step at h
    dsimp only at h
    split at h <;> obtain ⟨rfl, rfl, rfl⟩ := Prod.mk.inj h
    · exact ⟨rfl, look_builds hw rfl rfl⟩
    · exact ⟨rfl, hended _⟩
  case copy =>
    obtain rfl := Option.some.inj hjob
    exact copy_builds hw hp h
  case hash build workspace =>
    obtain rfl : build.job = job := Option.some.inj hjob
    unfold step at h
    dsimp only at h
    split at h <;> obtain ⟨rfl, rfl, rfl⟩ := Prod.mk.inj h
    · exact ⟨rfl, look_builds hw rfl rfl⟩
    · exact ⟨rfl, hended _⟩
  case share =>
    obtain rfl := Option.some.inj hjob
    exact share_builds hw hp h
  case makeDirs job' => exact absurd rfl (hmake job')
  case publish build workspace hash => exact absurd rfl (hpublish build workspace hash)
  all_goals cases hjob

end steps

end Phase

end Depot
