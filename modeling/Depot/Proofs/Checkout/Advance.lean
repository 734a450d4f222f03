import Depot.Proofs.Checkout.Upkeep

/-!
Each step of a checkout: what it leaves to the others, and what it makes true for the checkout
itself. One lemma for each operation that changes the disk; all other steps only look.
-/

namespace Depot

open Files Fingerprint

variable {site : Site} {seat : Seat} {owned : List Bytes} {w w' : World}

/-- A scratch directory that is not of the past. -/
def World.IsNew (site : Site) (w : World) (path : Bytes) : Prop :=
  ∃ σ : Scratch, path = σ.path site w.disk.cwd ∧ w.scratches < σ.number

namespace World

theorem IsSound.isName_scratch (hw : w.IsSound site seat) {σ : Scratch}
    (hdir : w.disk.root.IsDirAt (seat.area σ.purpose.area)) : ∀ n ∈ seat.scratch σ, IsName n := by
  obtain ⟨mode, es, hx⟩ := hdir
  intro n hn
  rcases List.mem_append.mp hn with hn | hn
  · exact hw.tree.names hx n hn
  · obtain rfl := List.mem_singleton.mp hn
    exact σ.isName

theorem IsSound.changedIn (hw : w.IsSound site seat) {σ : Scratch} (hσ : σ.path site w.disk.cwd ∈ owned)
    (hdir : w.disk.root.IsDirAt (seat.area σ.purpose.area)) {rest : Place}
    (hrest : ∀ n ∈ rest, IsName n) {f : Option Node → Option Node}
    (hf : ∀ node? : Option Node, (∀ node ∈ node?, node.IsSound) → ∀ x ∈ f node?, x.IsSound) :
    w.disk.ChangedIn site seat owned (w.disk.alter (seat.scratch σ ++ rest) f) := by
  refine .of_alter hw.tree hσ (List.prefix_append _ _) f (Disk.isSound_alter hw.tree hf ?_)
  intro n hn
  rcases List.mem_append.mp hn with hn | hn
  · exact hw.isName_scratch hdir n hn
  · exact hrest n hn

theorem IsSound.put_scratch (hw : w.IsSound site seat) {σ : Scratch}
    (hσ : σ.path site w.disk.cwd ∈ owned) (hdir : w.disk.root.IsDirAt (seat.area σ.purpose.area))
    {node : Node} (hnode : node.IsSound) :
    w.Keeps site seat owned { w with disk := w.disk.put (seat.scratch σ) node } ∧
      (w.disk.put (seat.scratch σ) node).root.get? (seat.scratch σ) = some node := by
  have hchanged := hw.changedIn hσ hdir (List.forall_mem_nil _)
    (f := fun _ => some node) (fun _ _ _ hx => Option.some.inj hx ▸ hnode)
  rw [List.append_nil] at hchanged
  refine ⟨.of_changedIn hw hchanged, ?_⟩
  have hne : seat.scratch σ ≠ [] := by simp [Seat.scratch, Seat.entry]
  have hput := Disk.get?_put_self hw.tree hne (by simpa [Seat.scratch, Seat.entry] using hdir) node []
  rwa [List.append_nil, Node.get?_nil] at hput

theorem Keeps.count (h : w.Keeps site seat owned w') {n : Nat} (hn : w'.scratches ≤ n) :
    w.Keeps site seat owned { w' with scratches := n } :=
  ⟨⟨h.sound.tree, h.sound.seat, h.sound.commits, h.sound.undisturbed⟩, h.cwd,
    Nat.le_trans h.scratches hn, h.areas, h.others, h.archives, h.published⟩

theorem makeScratch_cases (hw : w.IsSound site seat)
    (hareas : ∀ a, w.disk.root.IsDirAt (seat.area a)) (purpose : Purpose) {r : Except Errno Bytes}
    (h : w.makeScratch (site.areaPath purpose.area) purpose.word = (w', r)) :
    (∃ e, r = .error e ∧ w' = w) ∨ ∃ path, r = .ok path ∧ w.IsNew site path ∧
      w.Keeps site seat [path] w' ∧ w'.Has site seat path fun x => ∃ mode, x = .dir mode [] := by
  let σ : Scratch := ⟨purpose, w.scratches + 1⟩
  have hdir : w.disk.root.IsDirAt (seat.area σ.purpose.area) := hareas purpose.area
  have hname := hw.seat.names_scratch hdir
  unfold makeScratch at h
  dsimp only at h
  split at h
  case h_2 e _ =>
    obtain ⟨rfl, rfl⟩ := Prod.mk.inj h
    exact .inl ⟨e, rfl, rfl⟩
  case h_1 d' hmade =>
    have hd : w.disk.makeDir (σ.path site w.disk.cwd) 0o700 = .ok d' := hmade
    obtain ⟨rfl, rfl⟩ := Prod.mk.inj h
    refine .inr ⟨_, rfl, ⟨σ, rfl, Nat.lt_succ_self _⟩, ?_⟩
    have hlen := hw.seat.length_le_of_makeDir hdir hd
    obtain rfl : d' = w.disk.put (seat.scratch σ) (.dir 0o700 []) := by
      rcases hname.makeDir_cases 0o700 with hmake | ⟨-, -, hmake⟩ | ⟨-, hmake⟩
      · rw [hmake] at hd
        cases hd
      · rw [hmake] at hd
        exact (Except.ok.inj hd).symm
      · rw [hmake] at hd
        cases hd
    obtain ⟨hkeeps, hget⟩ := hw.put_scratch (List.mem_singleton.mpr rfl) hdir (isSound_empty 0o700)
    have hkeeps' := hkeeps.count (Nat.le_succ _)
    exact ⟨hkeeps', σ, _, ⟨rfl, Nat.le_refl _, hlen, fun a => hkeeps'.areas a (hareas a)⟩, hget,
      0o700, rfl⟩

theorem dropScratch_keeps (hw : w.IsSound site seat) {path : Bytes} {σ : Scratch}
    (hm : w.Made site seat path σ) : w.Keeps site seat [path] (w.dropScratch path) := by
  have hdir := hm.areas σ.purpose.area
  have hname := hw.seat.names_scratch hdir
  rw [dropScratch, hm.path]
  rcases hname.remove_cases with ⟨e, hremove⟩ | ⟨-, -, hremove⟩
  · rw [hremove]
    exact .refl hw
  · rw [hremove]
    have hchanged := hw.changedIn (List.mem_singleton.mpr rfl) hdir (List.forall_mem_nil _)
      (f := fun _ => none) nofun
    rw [List.append_nil] at hchanged
    exact .of_changedIn hw hchanged

/-- A tree in a scratch directory has the hash that is taken of it. -/
theorem IsSound.isHash_of_ofTree (hw : w.IsSound site seat) {path : Bytes} {hash : ArchiveHash}
    (hx : w.Has site seat path (·.isDir = true)) (h : ofTree w.disk path = .ok hash) :
    ∃ x : Node, w.Has site seat path (· = x) ∧ x.isDir = true ∧ IsHash x hash := by
  obtain ⟨σ, x, hm, hget, hdir⟩ := hx
  have hleads := hw.seat.leads_scratch hm.length (.of_isDir hget (by simp [hdir]))
  rw [← hm.path] at hleads
  refine ⟨x, ⟨σ, x, hm, hget, rfl⟩, hdir, ?_⟩
  rcases hleads.stat_cases with hstat | ⟨mode, es, hget', hstat⟩
  · rw [ofTree, items, hstat] at h
    cases h
  · obtain rfl := Option.some.inj (hget.symm.trans hget')
    exact .of_ofTree hstat h

/-- The tree of a workspace is not changed by a new mode. -/
theorem setMode_cases (hw : w.IsSound site seat) {path : Bytes} {h : ArchiveHash} (mode : Nat)
    (hx : w.Has site seat path fun x => x.isDir = true ∧ IsHash x h) :
    (∃ e, w.disk.setMode path mode = .error e) ∨ ∃ d', w.disk.setMode path mode = .ok d' ∧
      w.Keeps site seat [path] { w with disk := d' } ∧
      { w with disk := d' }.Has site seat path fun x => x.isDir = true ∧ IsHash x h := by
  obtain ⟨σ, x, hm, hget, hdir, hhash⟩ := hx
  have hleads := hw.seat.leads_scratch hm.length (.of_isDir hget (by simp [hdir]))
  rw [← hm.path] at hleads
  rcases hleads.setMode_cases mode with herror | ⟨old, es, hget', hset⟩
  · exact .inl herror
  · obtain rfl : x = .dir old es := Option.some.inj (hget.symm.trans hget')
    refine .inr ⟨_, hset, ?_⟩
    have hsound : (Node.dir mode es).IsSound :=
      Node.isSound_dir_iff.mpr (Node.isSound_dir_iff.mp (hw.tree.get? hget))
    obtain ⟨hkeeps, hput⟩ := hw.put_scratch (List.mem_singleton.mpr hm.path.symm) (hm.areas _) hsound
    exact ⟨hkeeps, σ, _, hm.keeps hkeeps, hput, rfl, hhash.congr rfl⟩

theorem Keeps.mono {owned' : List Bytes} (h : w.Keeps site seat owned w')
    (hsub : ∀ path ∈ owned, path ∈ owned') : w.Keeps site seat owned' w' :=
  ⟨h.sound, h.cwd, h.scratches, h.areas, fun σ hσ => h.others σ fun hmem => hσ (hsub _ hmem),
    h.archives, h.published⟩

theorem ensure_keeps (owned : List Bytes) (hw : w.IsSound site seat) {areas : List Area} {d' : Disk}
    {r : Except Failure Unit} (h : Workspace.ensure w.disk (areas.map site.areaPath) = (d', r)) :
    w.Keeps site seat owned { w with disk := d' } ∧
      (r = .ok () → ∀ a ∈ areas, d'.root.IsDirAt (seat.area a)) := by
  induction areas generalizing w with
  | nil =>
    obtain ⟨rfl, rfl⟩ := Prod.mk.inj h
    exact ⟨.refl hw, by simp⟩
  | cons a areas ih =>
    rw [List.map_cons, Workspace.ensure] at h
    cases hmake : w.disk.makeDirs (site.areaPath a) with
    | error e =>
      rw [hmake] at h
      obtain ⟨rfl, rfl⟩ := Prod.mk.inj h
      exact ⟨.refl hw, nofun⟩
    | ok d =>
      rw [hmake] at h
      obtain ⟨hkeeps, hdir⟩ := Keeps.of_makeDirs owned hw hmake
      obtain ⟨hrest, hall⟩ := ih hkeeps.sound h
      refine ⟨hkeeps.trans hrest, fun hr b hb => ?_⟩
      rcases List.mem_cons.mp hb with rfl | hb
      · exact hrest.areas b hdir
      · exact hall hr b hb

theorem isName_checkoutName : IsName Phase.checkoutName := by decide

theorem length_checkoutName : Phase.checkoutName.length ≤ 255 := by decide

theorem IsSound.put_inside (hw : w.IsSound site seat) {path : Bytes} {σ : Scratch} {n : Name}
    {node : Node} (hm : w.Made site seat path σ) (hdir : w.disk.root.IsDirAt (seat.scratch σ))
    (hn : IsName n) (hnode : node.IsSound) :
    w.Keeps site seat [path] { w with disk := w.disk.put (seat.scratch σ ++ [n]) node } ∧
      (w.disk.put (seat.scratch σ ++ [n]) node).root.get? (seat.scratch σ ++ [n]) = some node := by
  have hrest : ∀ m ∈ [n], IsName m := by simpa using hn
  refine ⟨.of_changedIn hw (hw.changedIn (List.mem_singleton.mpr hm.path.symm) (hm.areas _) hrest
    (f := fun _ => some node) fun _ _ _ hx => Option.some.inj hx ▸ hnode), ?_⟩
  have hput := Disk.get?_put_self hw.tree (List.concat_ne_nil n (seat.scratch σ))
    (by simpa using hdir) node []
  simpa using hput

/-- A clone fills the directory of its scratch directory, or leaves it empty. -/
theorem clone_keeps (hw : w.IsSound site seat) {scratch repo : Bytes} {branch : String}
    {r : Except Failure Unit} (hx : w.Has site seat scratch fun x => ∃ mode, x = .dir mode [])
    (h : History.clone repo branch (Build.checkout scratch) w = (w', r)) :
    w.Keeps site seat [scratch] w' ∧ (r = .ok () → ∃ commit tree es,
      w.Clones repo branch commit tree es ∧
        w'.Has site seat scratch fun x => x.get? [Phase.checkoutName] = some (.dir 0o755 es)) := by
  obtain ⟨σ, _, hm, hget, mode, rfl⟩ := hx
  obtain ⟨base, hl, he⟩ := hw.seat.extends_scratch σ
  have hscratch : seat.scratch σ = seat.home ++ (seat.names ++ [σ.purpose.area.name] ++ [σ.name]) := by
    rw [Seat.scratch, Seat.entry, ← Seat.home_append_names, List.append_assoc]
  have hplace : seat.scratch σ ++ [Phase.checkoutName] = seat.home ++
      (seat.names ++ [σ.purpose.area.name] ++ [σ.name] ++ [Phase.checkoutName]) := by
    rw [hscratch, List.append_assoc]
  have hdir : w.disk.root.IsDirAt (seat.scratch σ) := ⟨mode, [], hget⟩
  rw [← hm.path] at he
  rw [hscratch] at hget
  rcases History.of_clone hw.undisturbed h with ⟨rfl, hnot⟩ | ⟨finished, hclone, hcode⟩
  · exact ⟨.refl hw, fun hr => absurd hr hnot⟩
  rcases clone_cases hw.tree hw.commits hl (by simp) he isName_checkoutName hm.length hget hplace
    hclone with ⟨rfl, hnot⟩ | ⟨es, hes, rfl, htree⟩
  · exact ⟨.refl hw, fun hr => absurd (hcode hr) hnot⟩
  · obtain ⟨hkeeps, hfirst⟩ := hw.put_inside hm hdir isName_checkoutName (isSound_empty 0o755)
    have hm' := hm.keeps hkeeps
    obtain ⟨hkeeps', hsecond⟩ := hkeeps.sound.put_inside hm' (.of_append (by simp) hfirst)
      isName_checkoutName hes
    refine ⟨hkeeps.trans hkeeps', fun hr => ?_⟩
    obtain ⟨commit, tree, hclones⟩ := htree (hcode hr)
    rw [Node.get?_append] at hsecond
    obtain ⟨x, hx, hcheckout⟩ := Option.bind_eq_some_iff.mp hsecond
    exact ⟨commit, tree, es, hclones, σ, x, hm'.keeps hkeeps', hx, hcheckout⟩

theorem IsSound.leads_checkout (hw : w.IsSound site seat) {scratch : Bytes} {σ : Scratch}
    (hm : w.Made site seat scratch σ)
    (hdir : w.disk.root.IsDirAt (seat.scratch σ ++ [Phase.checkoutName])) :
    w.disk.LeadsTo (Build.checkout scratch) (seat.scratch σ ++ [Phase.checkoutName]) := by
  have hleads := hw.seat.leads_scratch hm.length (hdir.of_prefix (List.prefix_append _ _))
  rw [← hm.path] at hleads
  exact hleads.down (by simpa using length_checkoutName)
    (spells_join hleads.ne_nil hleads.nul isName_checkoutName) hdir

theorem strip_keeps (hw : w.IsSound site seat) {scratch : Bytes} {d' : Disk} {mode : Nat}
    {es : Entries}
    (hx : w.Has site seat scratch fun x => x.get? [Phase.checkoutName] = some (Node.dir mode es))
    (h : w.disk.remove (Path.below (Build.checkout scratch) [Repository.gitName]) = .ok d') :
    w.Keeps site seat [scratch] { w with disk := d' } ∧
      { w with disk := d' }.Has site seat scratch fun x =>
        x.get? [Phase.checkoutName] =
          some (Node.dir mode (Entries.erase Repository.gitName es)) := by
  obtain ⟨σ, x, hm, hget, hcheckout⟩ := hx
  have hdir : w.disk.root.get? (seat.scratch σ ++ [Phase.checkoutName]) = some (.dir mode es) := by
    rw [Node.get?_append, hget]
    exact hcheckout
  have hleads := hw.leads_checkout hm ⟨mode, es, hdir⟩
  have hname := hleads.name isName_gitName
    (spells_below hleads.ne_nil hleads.nul (by simp) (by simpa using isName_gitName))
  rcases hname.remove_cases with ⟨e, hremove⟩ | ⟨-, -, hremove⟩
  · rw [hremove] at h
    cases h
  · rw [hremove] at h
    obtain rfl := Except.ok.inj h
    have hrest : ∀ n ∈ [Phase.checkoutName, Repository.gitName], IsName n := by
      simpa using ⟨isName_checkoutName, isName_gitName⟩
    have hchanged := hw.changedIn (List.mem_singleton.mpr hm.path.symm) (hm.areas _) hrest
      (f := fun _ => none) nofun
    rw [List.append_cons] at hchanged
    have hkeeps := Keeps.of_changedIn hw hchanged
    refine ⟨hkeeps, σ, ?_⟩
    have hafter := Disk.get?_alter_append hw.tree (List.cons_ne_nil Repository.gitName []) hdir
      fun _ => none
    have hscratch : (w.disk.alter (seat.scratch σ ++ [Phase.checkoutName] ++ [Repository.gitName])
        fun _ => none).root.get? (seat.scratch σ ++ [Phase.checkoutName]) =
        some (.dir mode (Entries.erase Repository.gitName es)) := hafter
    rw [Node.get?_append] at hscratch
    obtain ⟨x', hx', hcheckout'⟩ := Option.bind_eq_some_iff.mp hscratch
    exact ⟨x', hm.keeps hkeeps, hx', hcheckout'⟩

/-- An archive is put where there is none, or an empty one. -/
theorem IsSound.put_archive (hw : w.IsSound site seat) (hdir : w.disk.root.IsDirAt (seat.area .archives))
    {n : Name} {node : Node} (hn : IsName n) (hnode : node.IsSound) (ha : IsArchive n node)
    (hold : w.disk.root.get? (seat.archive n) = none ∨
      ∃ mode, w.disk.root.get? (seat.archive n) = some (.dir mode [])) :
    w.Keeps site seat owned { w with disk := w.disk.put (seat.archive n) node } ∧
      (w.disk.put (seat.archive n) node).root.get? (seat.archive n) = some node := by
  have hne : seat.archive n ≠ [] := by simp [Seat.archive, Seat.entry]
  have hput : (w.disk.put (seat.archive n) node).root.get? (seat.archive n) = some node := by
    have hself := Disk.get?_put_self hw.tree hne (by simpa [Seat.archive, Seat.entry] using hdir) node []
    simpa using hself
  have hsound : (w.disk.put (seat.archive n) node).root.IsSound := by
    refine Disk.isSound_put hw.tree (fun m hm => ?_) hnode
    obtain ⟨mode, es, hx⟩ := hdir
    rcases List.mem_append.mp hm with hm | hm
    · exact hw.tree.names hx m hm
    · obtain rfl := List.mem_singleton.mp hm
      exact hn
  have hlook : ∀ other, ¬ seat.archive n <+: other →
      (w.disk.put (seat.archive n) node).root.look other = w.disk.root.look other :=
    fun other hother => Disk.look_alter_outside hw.tree hne hother _
  have hsame : seat.SameAround w.disk.root (w.disk.put (seat.archive n) node).root :=
    fun other hother => (hlook other (hother _ _)).symm
  have hother : ∀ m, m ≠ n → (w.disk.put (seat.archive n) node).root.get? (seat.archive m) =
      w.disk.root.get? (seat.archive m) := fun m hm =>
    Node.get?_eq_of_look_eq hsound hw.tree fun _ => hlook _ fun hp =>
      hm (Seat.eq_of_entry_append hp).2.symm
  refine ⟨⟨hw.withDisk hsound (hw.seat.frame rfl hsame), rfl, Nat.le_refl _,
    fun a h => (hsame.isDirAt_area a).mp h, fun σ _ => ?_, fun m x hx => ?_, fun m x hx => ?_⟩, hput⟩
  · exact Node.get?_eq_of_look_eq hsound hw.tree fun _ => hlook _ Seat.archive_not_above_scratch
  · by_cases hm : m = n
    · subst hm
      refine ⟨node, hput, .inr ?_⟩
      rcases hold with hnone | ⟨mode, hempty⟩
      · rw [hnone] at hx
        cases hx
      · rw [hempty] at hx
        obtain rfl := Option.some.inj hx
        rfl
    · exact ⟨x, (hother m hm).trans hx, .inl rfl⟩
  · by_cases hm : m = n
    · subst hm
      obtain rfl : node = x := Option.some.inj (hput.symm.trans hx)
      exact .inr ha
    · exact .inl ((hother m hm).symm.trans hx)

/-- A finished archive gets to its place, or finds one there, or there is a failure. -/
theorem publish_keeps (hw : w.IsSound site seat)
    (harchives : ∀ n x, w.disk.root.get? (seat.archive n) = some x → IsArchive n x)
    {workspace : Bytes} {h : ArchiveHash} {d' : Disk} {r : Except Failure Unit}
    (hx : w.Has site seat workspace fun x => x.isDir = true ∧ IsHash x h)
    (hpublish : Workspace.publish w.disk workspace (site.archivePath h) = (d', r)) :
    w.Keeps site seat [workspace] { w with disk := d' } ∧
      (r = .ok () → { w with disk := d' }.Holds seat h) := by
  obtain ⟨σ, x, hm, hget, hdir, hhash⟩ := hx
  have hname := hw.seat.names_scratch (hm.areas σ.purpose.area)
  have hname' := hw.seat.names_archive (hm.areas .archives) hhash.isName
  rw [← hm.path] at hname
  rw [← Site.archivePath_eq] at hname'
  obtain ⟨mode, es, rfl⟩ : ∃ mode es, x = .dir mode es := by
    cases x with
    | dir mode es => exact ⟨mode, es, rfl⟩
    | _ => cases hdir
  rw [Workspace.publish] at hpublish
  rcases hname.rename_cases hname' hget with ⟨e, hrename⟩ | ⟨hold, -, hrename⟩
  · rw [hrename] at hpublish
    have hlink : ∀ target, w.disk.root.get? (seat.archive h.name) ≠ some (.link target) :=
      fun target ht => by cases (harchives _ _ ht).1
    by_cases hexists : w.disk.doesExist (site.archivePath h) = true
    · simp only [if_pos hexists] at hpublish
      obtain ⟨rfl, rfl⟩ := Prod.mk.inj hpublish
      refine ⟨.refl hw, fun _ => ?_⟩
      rw [Disk.doesExist] at hexists
      rcases hname'.stat_cases hlink with hstat | ⟨-, hstat⟩
      · rw [hstat] at hexists
        cases hexists
      · cases hx : w.disk.root.get? (seat.archive h.name) with
        | some x => exact ⟨x, hx⟩
        | none =>
          rw [hstat, show w.disk.root.get? (seat.area .archives ++ [h.name]) = none from hx] at hexists
          cases hexists
    · simp only [if_neg hexists] at hpublish
      obtain ⟨rfl, rfl⟩ := Prod.mk.inj hpublish
      exact ⟨.refl hw, nofun⟩
  · rw [hrename] at hpublish
    obtain ⟨rfl, rfl⟩ := Prod.mk.inj hpublish
    have hchanged := hw.changedIn (List.mem_singleton.mpr hm.path.symm) (hm.areas _)
      (List.forall_mem_nil _) (f := fun _ => none) nofun
    rw [List.append_nil] at hchanged
    have hkeeps := Keeps.of_changedIn hw hchanged
    have hold' := hchanged.get?_archive hw.tree h.name
    obtain ⟨hkeeps', hput⟩ := hkeeps.sound.put_archive (hkeeps.areas _ (hm.areas .archives))
      hhash.isName (hw.tree.get? hget) ⟨rfl, h, rfl, hhash⟩ (hold' ▸ hold)
    exact ⟨hkeeps.trans hkeeps', fun _ => ⟨_, hput⟩⟩

/-- A task of a copy writes into the workspace only. -/
theorem take_keeps (hw : w.IsSound site seat) {σ : Scratch} {route : Archive.Route}
    {task : Archive.Task} {rest : List Archive.Task} {c' : Archive.Copying}
    {r : Except Failure (List Archive.Task)} (hm : w.Made site seat route.dest σ)
    (hu : Archive.Underway (seat.scratch σ) route.dest w.disk (task :: rest))
    (h : Archive.Copying.take ⟨w.disk, {}⟩ route task = (c', r)) :
    w.Keeps site seat [route.dest] { w with disk := c'.disk } ∧
      ∀ more, r = .ok more →
        Archive.Underway (seat.scratch σ) route.dest c'.disk (more ++ rest) := by
  have heffect := Archive.Copying.effect_of_take (c := ⟨w.disk, {}⟩) hu.sound hu.leads
    (hu.ready task List.mem_cons_self) h
  obtain ⟨hsound, hsame, hcwd⟩ := hu.sameOff_effect heffect
  refine ⟨.of_changedIn hw (.of_sameOff (List.mem_singleton.mpr hm.path.symm) hsound hcwd hsame), ?_⟩
  rintro more rfl
  exact (hu.step heffect).1

end World

end Depot
