import Depot.Proofs.Cli.Parsing
import Depot.Proofs.Files.Deciding
import Depot.Proofs.Path.Parent
import Depot.Proofs.Settings.File

/-!
Commands for the settings file. Every run loads the settings before it looks at its command, also one
that would replace them or only tell where they are; so settings that cannot be loaded stop both. The
default settings are written over a file exactly if it loads and its owner may write it.
-/

namespace Depot.Cli

open Files

/-- The end of a run that has written nothing but its failure. -/
def failed (f : Failure) : Finished :=
  let screen := ({} : Screen).status "Error:" f.message
  let screen := match f.hint? with
    | some hint => screen.status "Hint:" hint
    | none => screen
  ⟨screen.out, screen.err, some 1⟩

section runs

variable {env : Environment} {w : World} {words : List String} {i : Invocation} {f : Failure}
  {s : Settings} {action : Option SettingsAction}

theorem run_eq
    (h : Invocation.parse ((assoc? settingsVariable env).map Utf8.toStringLossy) words = .ok i) :
    run env w words = i.run env w := by
  unfold run
  rw [h]

theorem run_of_outcome_error (h : i.outcome env w = (w, {}, .error f)) : i.run env w = (w, failed f) := by
  unfold Invocation.run
  rw [h]
  rfl

/-- Nothing is done under settings that cannot be loaded. -/
theorem run_of_load_error
    (h : Settings.load w.disk env.defaultSettings (i.settingsPath env) = .error f) :
    i.run env w = (w, failed f) := by
  apply run_of_outcome_error
  unfold Invocation.outcome
  simp only [h]

theorem outcome_settings (hrequest : i.request = .settings action)
    (h : Settings.load w.disk env.defaultSettings (i.settingsPath env) = .ok s) :
    i.outcome env w = manageSettings env s (i.settingsPath env) w action := by
  unfold Invocation.outcome
  simp only [h, hrequest, Request.needsCache, Request.run]
  rfl

end runs

section file

variable {d : Disk} {path data : Bytes} {place : Place} {mode : Nat} {s default : Settings}

theorem readable_of_load (hfile : d.locate path = .ok (place, .file mode data))
    (h : Settings.load d default path = .ok s) : mode &&& Disk.ownerRead ≠ 0 := by
  intro hmode
  have hread : d.read path = .error .denied := by
    unfold Disk.read
    rw [Disk.stat_of_locate hfile]
    exact if_pos hmode
  unfold Settings.load at h
  rw [if_pos (Disk.doesExist_of_locate hfile)] at h
  unfold Settings.ofFile at h
  rw [hread] at h
  cases h

theorem save_file (hrepository : Utf8.IsValid s.repository) (hroot : Utf8.IsValid s.cacheRoot)
    (hfile : d.locate path = .ok (place, .file mode data)) :
    s.save d path = match d.write path (Utf8.encode s.text) with
      | .error e => (d, .error (.ofErrno ("writing config to " ++ Utf8.toStringLossy path) e))
      | .ok d' => (d', .ok ()) := by
  obtain ⟨parent, hparent, hdirs⟩ := Disk.makeDirs_parent hfile rfl
  unfold Settings.save
  simp only [hparent, hdirs, Settings.text?_eq hrepository hroot]
  rfl

theorem save_denied (hrepository : Utf8.IsValid s.repository) (hroot : Utf8.IsValid s.cacheRoot)
    (hfile : d.locate path = .ok (place, .file mode data)) (hmode : mode &&& Disk.ownerWrite = 0) :
    s.save d path =
      (d, .error (.ofErrno ("writing config to " ++ Utf8.toStringLossy path) .denied)) := by
  have hwrite : d.write path (Utf8.encode s.text) = .error .denied := by
    unfold Disk.write
    rw [Disk.find_of_locate hfile]
    exact if_pos hmode
  rw [save_file hrepository hroot hfile, hwrite]

end file

/-- What the commands for the settings do, if the settings file of a world has a mode. -/
structure Manages (env : Environment) (w : World) (words : List String) (i : Invocation) (mode : Nat) :
    Prop where
  /-- The path is only told if the settings can be loaded. -/
  shows : i.request = .settings (some .showPath) →
    run env w words =
      (w, match Settings.load w.disk env.defaultSettings (i.settingsPath env) with
        | .ok _ =>
          ⟨Utf8.ofString (Utf8.toStringLossy (i.settingsPath env) ++ "\n"), [], some 0⟩
        | .error f => failed f)
  keeps : i.request = .settings (some (.create false)) → (run env w words).1 = w
  replaces : i.request = .settings (some (.create true)) →
    match Settings.load w.disk env.defaultSettings (i.settingsPath env) with
    | .error f => run env w words = (w, failed f)
    | .ok _ =>
      if mode &&& Disk.ownerWrite = 0 then
        run env w words = (w, failed (.ofErrno
          ("writing config to " ++ Utf8.toStringLossy (i.settingsPath env)) .denied))
      else ∃ d, run env w words =
          ({ w with disk := d }, ⟨[], Utf8.ofString ("[OK] Configuration initialized (" ++
            Utf8.toStringLossy (i.settingsPath env) ++ ")\n"), some 0⟩) ∧
        Settings.load d env.defaultSettings (i.settingsPath env) = .ok env.defaultSettings

section manages

variable {env : Environment} {w : World} {words : List String} {i : Invocation} {place : Place}
  {mode : Nat} {data : Bytes}

theorem run_shows (hrequest : i.request = .settings (some .showPath)) :
    i.run env w =
      (w, match Settings.load w.disk env.defaultSettings (i.settingsPath env) with
        | .ok _ => ⟨Utf8.ofString (Utf8.toStringLossy (i.settingsPath env) ++ "\n"), [], some 0⟩
        | .error f => failed f) := by
  cases hload : Settings.load w.disk env.defaultSettings (i.settingsPath env) with
  | error f => exact run_of_load_error hload
  | ok s =>
    unfold Invocation.run
    rw [outcome_settings hrequest hload]
    rfl

theorem run_keeps (hrequest : i.request = .settings (some (.create false)))
    (hexists : w.disk.doesExist (i.settingsPath env) = true) : (i.run env w).1 = w := by
  cases hload : Settings.load w.disk env.defaultSettings (i.settingsPath env) with
  | error f => rw [run_of_load_error hload]
  | ok s =>
    unfold Invocation.run
    rw [outcome_settings hrequest hload]
    unfold manageSettings
    simp only [hexists]
    rfl

theorem run_replaces {s : Settings} (hrequest : i.request = .settings (some (.create true)))
    (hload : Settings.load w.disk env.defaultSettings (i.settingsPath env) = .ok s)
    {d : Disk} (hsave : env.defaultSettings.save w.disk (i.settingsPath env) = (d, .ok ())) :
    i.run env w = ({ w with disk := d }, ⟨[], Utf8.ofString ("[OK] Configuration initialized (" ++
      Utf8.toStringLossy (i.settingsPath env) ++ ")\n"), some 0⟩) := by
  have houtcome := outcome_settings hrequest hload
  unfold manageSettings at houtcome
  simp only [Bool.not_true, Bool.and_false, Bool.false_eq_true, if_false, hsave] at houtcome
  unfold Invocation.run
  rw [houtcome]
  have htext : "[OK]" ++ " " ++ ("Configuration initialized (" ++
      Utf8.toStringLossy (i.settingsPath env) ++ ")") ++ "\n" =
      "[OK] Configuration initialized (" ++ Utf8.toStringLossy (i.settingsPath env) ++ ")\n" := by
    simp [← String.toList_inj]
  simp only [Screen.status, htext]
  rfl

theorem run_denied {s : Settings} (hrequest : i.request = .settings (some (.create true)))
    (hload : Settings.load w.disk env.defaultSettings (i.settingsPath env) = .ok s) {f : Failure}
    (hsave : env.defaultSettings.save w.disk (i.settingsPath env) = (w.disk, .error f)) :
    i.run env w = (w, failed f) := by
  apply run_of_outcome_error
  rw [outcome_settings hrequest hload]
  unfold manageSettings
  simp only [Bool.not_true, Bool.and_false, Bool.false_eq_true, if_false, hsave]

/-- What becomes of a settings file, whatever is in it. If its settings cannot be loaded, all commands
fail with that, also those that would replace it or tell its path. Otherwise the default settings are
written over it when that is asked for, and load back, and its path is told. It is never changed unless
that is asked for. -/
theorem manages_settings (hs : w.disk.root.IsSound)
    (hparse : Invocation.parse ((assoc? settingsVariable env).map Utf8.toStringLossy) words = .ok i)
    (hfile : w.disk.locate (i.settingsPath env) = .ok (place, .file mode data))
    (hrepository : Utf8.IsValid env.defaultSettings.repository)
    (hroot : Utf8.IsValid env.defaultSettings.cacheRoot) :
    Manages env w words i mode ∧
      ∀ settings, settings ≠ some "" →
        Invocation.parse settings ["config", "path"] =
          .ok ⟨.settings (some .showPath), 0, settings, none⟩ ∧
        Invocation.parse settings ["config", "init"] =
          .ok ⟨.settings (some (.create false)), 0, settings, none⟩ ∧
        Invocation.parse settings ["config", "init", "--force"] =
          .ok ⟨.settings (some (.create true)), 0, settings, none⟩ := by
  refine ⟨⟨fun h => ?_, fun h => ?_, fun h => ?_⟩, fun settings hsettings => ?_⟩
  · rw [run_eq hparse]
    exact run_shows h
  · rw [run_eq hparse]
    exact run_keeps h (Disk.doesExist_of_locate hfile)
  · rw [run_eq hparse]
    cases hload : Settings.load w.disk env.defaultSettings (i.settingsPath env) with
    | error f => exact run_of_load_error hload
    | ok s =>
      by_cases hmode : mode &&& Disk.ownerWrite = 0
      · rw [if_pos hmode]
        exact run_denied h hload (save_denied hrepository hroot hfile hmode)
      · rw [if_neg hmode]
        obtain ⟨parent, hparent, hdirs⟩ := Disk.makeDirs_parent hfile rfl
        have howned : Disk.IsOwned mode := ⟨readable_of_load hfile hload, hmode⟩
        obtain ⟨d, hsave, hback⟩ := Settings.load_save (s := env.defaultSettings) rfl hrepository hroot
          hs hparent hdirs (Disk.find_of_locate hfile) (.inr ⟨mode, data, rfl, howned⟩) env.defaultSettings
        exact ⟨d, run_replaces h hload hsave, hback⟩
  · cases settings with
    | none => exact ⟨rfl, rfl, rfl⟩
    | some p =>
      have hp : p ≠ "" := by simpa using hsettings
      have key : ∀ words levels action,
          Level.read [] words grammar { path := [programName] } = .ok levels →
          (∀ l ∈ levels, l.IsUnnamed) →
          Invocation.ofLevels levels = .ok ⟨.settings (some action), 0, none, none⟩ →
          Invocation.parse (some p) words = .ok ⟨.settings (some action), 0, some p, none⟩ :=
        fun _ _ _ hread hnone h => Invocation.parse_config hp hread hnone h
      refine ⟨key _ _ _ rfl ?_ rfl, key _ _ _ rfl ?_ rfl, key _ _ _ rfl ?_ rfl⟩ <;> decide

def furnished (data : Bytes) : World where
  disk := { root := .dir 0o755 [([0x63], .file 0o644 data)] }

/-- The default settings are written over an empty file. A file that is no text is left as it is. -/
theorem manages_settings_furnished :
    (∃ d, run [("HOME", [0x2F]), (settingsVariable, [0x2F, 0x63])] (furnished [])
          ["config", "init", "--force"] =
        ({ furnished [] with disk := d },
          ⟨[], Utf8.ofString "[OK] Configuration initialized (/c)\n", some 0⟩) ∧
      Settings.load d (Environment.defaultSettings [("HOME", [0x2F])]) [0x2F, 0x63] =
        .ok (Environment.defaultSettings [("HOME", [0x2F])])) ∧
      run [("HOME", [0x2F]), (settingsVariable, [0x2F, 0x63])] (furnished [0xFF])
          ["config", "init", "--force"] =
        (furnished [0xFF], failed (.ofErrno "reading config from /c" .badText)) := by
  have hmanages : ∀ data, (furnished data).disk.root.IsSound →
      Manages [("HOME", [0x2F]), (settingsVariable, [0x2F, 0x63])] (furnished data)
        ["config", "init", "--force"] ⟨.settings (some (.create true)), 0, some "/c", none⟩ 0o644 :=
    fun data hs => (@manages_settings _ (furnished data) _ _ [[0x63]] _ data hs (by decide) rfl
      (by decide) (by decide)).1
  exact ⟨(hmanages [] (by decide)).replaces rfl, (hmanages [0xFF] (by decide)).replaces rfl⟩

end manages

end Depot.Cli
