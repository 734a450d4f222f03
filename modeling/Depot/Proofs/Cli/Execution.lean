import Depot.Proofs.Cli.Parsing
import Depot.Proofs.Text.Decoding
import Depot.Proofs.Text.Utf8

/-!
What becomes of the words after `--`. The command line takes all of them as they are, also those that
look like options of its own, and hands them on to the command that runs in the archive: the first is
its program, the others are its arguments.
-/

namespace Depot.Cli

def execGrammar : Grammar :=
  leaf "exec" [locationOption] [⟨"target", false⟩, ⟨"command", true⟩]

/-- What the environment gives, if it names the settings file. -/
def ambientOf (settings : Option String) : List (String × String) :=
  (settings.map fun path => ("config", path)).toList

/-- The path of the settings file, as the environment gives it to a command line that gives none. It is
judged like one that an option gives. -/
def ambientPath (settings : Option String) : Except UsageError (Option String) :=
  if settings.all ValueRule.notEmpty.accepts then .ok settings else .error .invalidValue

/-- The words that say in which location to search. -/
def locationWords (location : Option String) : List String :=
  (location.map fun name => "--location=" ++ name).toList

theorem ambientPath_some {path : String} (h : path ≠ "") : ambientPath (some path) = .ok (some path) := by
  have haccepts : (some path).all ValueRule.notEmpty.accepts = true := by
    simpa [ValueRule.accepts] using h
  exact if_pos haccepts

namespace Level

variable {ambient : List (String × String)} {g : Grammar} {lv : Level} {w : String}
  {ws : List String}

/-- A word that does not begin with a dash is an operand, if no option waits for a value. -/
theorem word_eq_operand (hdash : w.toList.head? ≠ some '-') (hopen : lv.isOpen = false) :
    lv.word g w = lv.operand g w := by
  unfold word
  split
  · next hw => simp [hw] at hdash
  · next hw => simp [hw] at hdash
  · rw [hopen]

theorem read_word (htrail : lv.isTrailing = false) (hchild : g.children = []) (hdash : w ≠ "--")
    {lv' : Level} (h : lv.word g w = .ok lv') :
    read ambient (w :: ws) g lv = read ambient ws g lv' := by
  have hnone : g.child? w = none := by
    unfold Grammar.child?
    rw [hchild]
    rfl
  rw [read, if_neg (by simp [htrail]), hnone, ite_self]
  simp only [if_neg hdash, h]
  rfl

theorem read_dashes (htrail : lv.isTrailing = false) (hchild : g.children = []) :
    read ambient ("--" :: ws) g lv = read ambient ws g { lv with isTrailing := true } := by
  have hnone : g.child? "--" = none := by
    unfold Grammar.child?
    rw [hchild]
    rfl
  rw [read, if_neg (by simp [htrail]), hnone, ite_self]
  exact if_pos rfl

section rest

variable {o : Operand} {vs : List String} (hlast : g.operands.getLast? = some o)
  (hrest : o.isRest = true) (htrail : lv.isTrailing = true)
include hlast hrest htrail

/-- The operand for the rest takes a word whatever is in it. -/
theorem operand_rest (hwait : lv.waiting = some (o.name, vs)) :
    lv.operand g w = .ok { lv with waiting := some (o.name, vs ++ [w]) } := by
  have hany : (g.operands.any (·.isRest)) = true :=
    List.any_eq_true.mpr ⟨o, List.mem_of_getLast? hlast, hrest⟩
  rw [List.getLast?_eq_getElem?] at hlast
  unfold operand
  simp [hany, htrail, hlast, hrest, hwait]

theorem read_rest (hwait : lv.waiting = some (o.name, vs)) :
    read ambient ws g lv =
      finish ambient g false { lv with waiting := some (o.name, vs ++ ws) } >>= fun lv => .ok [lv] := by
  induction ws generalizing lv vs with
  | nil =>
    rw [List.append_nil, ← hwait]
    rfl
  | cons w ws ih =>
    have hword : lv.operand g w = .ok { lv with waiting := some (o.name, vs ++ [w]) } :=
      operand_rest hlast hrest htrail hwait
    have hnext := @ih { lv with waiting := some (o.name, vs ++ [w]) } (vs ++ [w]) htrail rfl
    rw [List.append_assoc, List.singleton_append] at hnext
    rw [read, if_pos htrail, hword]
    exact hnext

end rest

section exec

variable {target program : String} {location : Option String} {args : List String}

/-- What has been given before the words of the command. -/
def execValues (target : String) (location : Option String) : List (String × List String) :=
  ("target", [target]) :: (location.map fun name => ("location", [name])).toList

/-- The level of a command line that runs a command, before its words are judged. -/
def execLevel (target : String) (location : Option String) (words : List String) : Level where
  path := [programName, "exec"]
  values := execValues target location
  waiting := some ("command", words)
  isTrailing := true
  position := 1

theorem word_target (htarget : target.toList.head? ≠ some '-') :
    ({ path := [programName, "exec"] } : Level).word execGrammar target =
      .ok { path := [programName, "exec"], waiting := some ("target", [target]), position := 1 } := by
  rw [word_eq_operand htarget rfl]
  rfl

theorem word_location (target name : String) :
    ({ path := [programName, "exec"], waiting := some ("target", [target]),
        position := 1 } : Level).word execGrammar ("--location=" ++ name) =
      .ok { path := [programName, "exec"], values := execValues target (some name), position := 1 } := by
  have hlist : ("--location=" ++ name).toList =
      '-' :: '-' :: ("location".toList ++ '=' :: name.toList) := by simp
  have hname : ("location".toList ++ '=' :: name.toList).takeWhile (· ≠ '=') = "location".toList := by
    simp
  unfold word
  rw [hlist]
  simp only [hname, List.drop_left, String.ofList_toList]
  rfl

/-- The first word after `--` waits with those to come; what waited before it has been judged. -/
theorem read_command (hdash : target.toList.head? ≠ some '-') :
    read ambient (target :: (locationWords location ++ "--" :: program :: args)) execGrammar
        { path := [programName, "exec"] } =
      finish ambient execGrammar false (execLevel target location (program :: args)) >>=
        fun lv => .ok [lv] := by
  have htarget : target ≠ "--" := by
    rintro rfl
    exact hdash rfl
  have hrest : read ambient args execGrammar (execLevel target location [program]) =
      finish ambient execGrammar false (execLevel target location (program :: args)) >>=
        fun lv => .ok [lv] :=
    @read_rest ambient execGrammar (execLevel target location [program]) args ⟨"command", true⟩
      [program] rfl rfl rfl rfl
  rw [read_word rfl rfl htarget (word_target hdash), ← hrest]
  cases location with
  | none =>
    change read ambient ("--" :: program :: args) execGrammar _ = _
    rw [read_dashes rfl rfl]
    rfl
  | some name =>
    have hlocation : "--location=" ++ name ≠ "--" := by simp [← String.toList_inj]
    change read ambient (("--location=" ++ name) :: "--" :: program :: args) execGrammar _ = _
    rw [read_word rfl rfl hlocation (word_location target name), read_dashes rfl rfl]
    rfl

/-- What is left to be judged at the end is the command and the path that the environment gives. -/
theorem finish_execLevel (target : String) (location settings : Option String) (program : String)
    (args : List String) :
    finish (ambientOf settings) execGrammar false (execLevel target location (program :: args)) =
      (ambientPath settings).map fun path => {
        path := [programName, "exec"]
        values := execValues target location ++ [("command", program :: args)]
        ambient := ambientOf path
        isTrailing := true
        position := 1 } := by
  have hall : ((program :: args).all (execGrammar.ruleOf "command").accepts) = true := by
    have hrule : execGrammar.ruleOf "command" = .any := by decide
    rw [hrule, List.all_eq_true]
    exact fun _ _ => rfl
  have hnone : assoc? "command" (execValues target location) = none := by cases location <;> rfl
  have hset : assocSet "command" (program :: args) (execValues target location) =
      execValues target location ++ [("command", program :: args)] := by cases location <;> rfl
  have hconfig : assoc? "config" (execValues target location ++ [("command", program :: args)]) =
      none := by cases location <;> rfl
  have htaken : (execLevel target location (program :: args)).settle execGrammar =
      .ok { execLevel target location (program :: args) with
        waiting := none
        values := execValues target location ++ [("command", program :: args)] } := by
    unfold settle take
    simp only [execLevel, hnone, hall, hset]
    rfl
  unfold finish
  rw [htaken]
  cases settings with
  | none => cases location <;> rfl
  | some path =>
    have hrule : execGrammar.ruleOf "config" = .notEmpty := by decide
    by_cases hpath : path = ""
    · subst hpath
      change addAmbient execGrammar [("config", "")] _ >>= _ = _
      simp only [addAmbient, execLevel, hconfig, hrule]
      rfl
    · change addAmbient execGrammar [("config", path)] _ >>= _ = _
      rw [addAmbient_config hpath hrule hconfig, ambientPath_some hpath]
      cases location <;> rfl

end exec

end Level

/-- A command line with a command after `--` asks for that command, word for word. -/
theorem Invocation.parse_exec {target : String} (hdash : target.toList.head? ≠ some '-')
    (location settings : Option String) (program : String) (args : List String) :
    parse settings ("exec" :: target :: (locationWords location ++ "--" :: program :: args)) =
      (ambientPath settings).map fun path =>
        ⟨.exec target location (program :: args), 0, path, none⟩ := by
  have hread := @Level.read_command (ambientOf settings) target program location args hdash
  rw [Level.finish_execLevel] at hread
  have houter : Level.read (ambientOf settings)
      ("exec" :: target :: (locationWords location ++ "--" :: program :: args)) grammar
      { path := [programName] } =
        Level.read (ambientOf settings)
          (target :: (locationWords location ++ "--" :: program :: args)) execGrammar
          { path := [programName, "exec"] } >>= fun below =>
            Level.finish (ambientOf settings) grammar true { path := [programName] } >>=
              fun lv => .ok (lv :: below) := rfl
  unfold parse
  change Level.read (ambientOf settings) _ grammar { path := [programName] } >>= ofLevels = _
  rw [houter, hread]
  cases settings with
  | none => cases location <;> rfl
  | some path =>
    by_cases hpath : path = ""
    · subst hpath
      rfl
    · have hroot : Level.finish (ambientOf (some path)) grammar true { path := [programName] } =
          .ok (Level.named path { path := [programName] }) := by
        have hrule : grammar.ruleOf "config" = .notEmpty := by decide
        have hgiven := @Level.addAmbient_config path grammar { path := [programName] } hpath hrule rfl
        change Level.addAmbient grammar [("config", path)] { path := [programName] } >>= _ = _
        rw [hgiven]
        rfl
      rw [ambientPath_some hpath, hroot]
      cases location <;> rfl

end Depot.Cli

namespace Depot

open Files Host

theorem Utf8.toStringLossy_ofString (word : String) : toStringLossy (ofString word) = word := by
  unfold toStringLossy ofString
  rw [lossy_encode, String.ofList_toList]

theorem Utf8.map_toStringLossy_ofString (words : List String) :
    (words.map ofString).map toStringLossy = words := by
  rw [List.map_map]
  conv_rhs => rw [← List.map_id words]
  exact List.map_congr_left fun word _ => toStringLossy_ofString word

namespace Archive

def command (a : Archive) (program : String) (args : List String) : Command :=
  ⟨Utf8.ofString program, args.map Utf8.ofString, some a.root⟩

theorem command_text (a : Archive) (program : String) (args : List String) :
    (a.command program args).text = spaced (program :: args) := by
  unfold command Command.text
  rw [List.map_cons, Utf8.map_toStringLossy_ofString, Utf8.toStringLossy_ofString]

/-- A command can be asked of the system: the root of the archive is a directory, at this place, and
no word holds a NUL. -/
structure CanAsk (a : Archive) (d : Disk) (words : List String) (place : Place) : Prop where
  root : ∃ mode es, d.locate a.root = .ok (place, .dir mode es)
  nul : ∀ word ∈ words, '\x00' ∉ word.toList

theorem any_nul_eq_false {program : String} {args : List String}
    (h : ∀ word ∈ program :: args, '\x00' ∉ word.toList) :
    ((Utf8.ofString program :: args.map Utf8.ofString).any fun word => (0 : UInt8) ∈ word) =
      false := by
  rw [← List.map_cons, List.any_map, List.any_eq_false]
  intro word hword
  have hnul : (0 : UInt8) ∉ Utf8.ofString word := fun h0 =>
    h word hword (Utf8.mem_of_mem_encode (by decide) h0)
  simpa using hnul

/-- What becomes of a command in the root of an archive is up to the system alone, which is asked for
the program of the first word, with the other words as its arguments. -/
structure HandsOn [Host] (a : Archive) (env : Environment) (d : Disk) (program : String)
    (args : List String) (place : Place) : Prop where
  ended : ∀ left finished, start env { d with cwd := place } (Utf8.ofString program)
    (args.map Utf8.ofString) = .ok (left, finished) → a.exec env d (program :: args) =
      ({ left with cwd := d.cwd }, finished.output (spaced (program :: args)))
  refused : ∀ e, start env { d with cwd := place } (Utf8.ofString program)
    (args.map Utf8.ofString) = .error e → a.exec env d (program :: args) =
      (d, .error (.commandNotStarted (spaced (program :: args)) (.errno e)))

variable [Host] {a : Archive} {env : Environment} {d : Disk} {program : String}
  {args : List String} {place : Place}

theorem exec_cons (a : Archive) (env : Environment) (d : Disk) (program : String)
    (args : List String) : a.exec env d (program :: args) = output env d (a.command program args) := rfl

theorem handsOn_of_canAsk (h : a.CanAsk d (program :: args) place) :
    a.HandsOn env d program args place := by
  obtain ⟨⟨mode, es, hroot⟩, hnul⟩ := h
  have hwithin : within d (some a.root) = .ok { d with cwd := place } := by
    simp only [within, hroot]
  have hfinish : ∀ outcome, start env { d with cwd := place } (Utf8.ofString program)
      (args.map Utf8.ofString) = outcome → finish env d (a.command program args) =
        (outcome.toOption.elim d fun left => { left.1 with cwd := d.cwd }, outcome.map (·.2)) := by
    rintro outcome rfl
    rw [finish, command, if_neg (by rw [any_nul_eq_false hnul]; decide)]
    simp only [hwithin]
    cases start env { d with cwd := place } (Utf8.ofString program) (args.map Utf8.ofString) <;> rfl
  constructor
  · intro left finished hstart
    rw [exec_cons, output, hfinish _ hstart]
    simp only [Except.toOption, Option.elim, Except.map, command_text]
  · intro e hstart
    rw [exec_cons, output, hfinish _ hstart]
    simp only [Except.toOption, Option.elim, Except.map, command_text]

/-- A command that cannot be asked of the system changes nothing. -/
theorem exec_of_not_canAsk (h : ∀ place, ¬ a.CanAsk d (program :: args) place) :
    ∃ e, a.exec env d (program :: args) =
      (d, .error (.commandNotStarted (spaced (program :: args)) (.errno e))) := by
  suffices hfinish : ∃ e, finish env d (a.command program args) = (d, .error e) by
    obtain ⟨e, he⟩ := hfinish
    refine ⟨e, ?_⟩
    rw [exec_cons, output, he, command_text]
  unfold finish
  split_ifs with hany
  · exact ⟨_, rfl⟩
  · have hnul : ∀ word ∈ program :: args, '\x00' ∉ word.toList := by
      intro word hword h0
      refine hany (List.any_eq_true.mpr ⟨Utf8.ofString word, ?_, decide_eq_true ?_⟩)
      · exact List.mem_map_of_mem hword
      · exact List.mem_flatMap.mpr ⟨_, h0, by decide⟩
    cases hwithin : within d (a.command program args).dir with
    | error e => exact ⟨e, rfl⟩
    | ok inner =>
      change within d (some a.root) = .ok inner at hwithin
      unfold within at hwithin
      dsimp only at hwithin
      split at hwithin
      · next place mode es hroot => exact absurd ⟨⟨mode, es, hroot⟩, hnul⟩ (h place)
      · cases hwithin
      · cases hwithin

end Archive

namespace Cli

/-- The words after `--` come to the command that is run as they are. Whatever they look like, the
command line takes none of them for its own; the first is the program, run in the root of the archive,
and the others are its arguments, which can be read back from what the system is given. A command that
cannot be asked of the system changes nothing. -/
theorem exec_hands_words_on [Host] {target : String} (hdash : target.toList.head? ≠ some '-')
    (location settings : Option String) (program : String) (args : List String) :
    Invocation.parse settings
        ("exec" :: target :: (locationWords location ++ "--" :: program :: args)) =
      ((ambientPath settings).map fun path =>
        ⟨.exec target location (program :: args), 0, path, none⟩) ∧
      (Utf8.ofString program :: args.map Utf8.ofString).map Utf8.toStringLossy = program :: args ∧
      ∀ (a : Archive) (env : Environment) (d : Disk),
        (∀ place, a.CanAsk d (program :: args) place → a.HandsOn env d program args place) ∧
        ((∀ place, ¬ a.CanAsk d (program :: args) place) →
          ∃ e, a.exec env d (program :: args) =
            (d, .error (.commandNotStarted (spaced (program :: args)) (.errno e)))) := by
  refine ⟨Invocation.parse_exec hdash location settings program args, ?_, fun a env d => ⟨?_, ?_⟩⟩
  · rw [List.map_cons, Utf8.toStringLossy_ofString, Utf8.map_toStringLossy_ofString]
  · exact fun place h => Archive.handsOn_of_canAsk h
  · exact Archive.exec_of_not_canAsk

def shelved : Disk where
  root := .dir 0o755 [([0x64], .dir 0o755 [])]

/-- A system whose only program prints its arguments. -/
@[reducible] def echoing : Host where
  start _ d program args :=
    if program = Utf8.ofString "echo" then .ok (d, ⟨joinWith [0x20] args ++ [0x0A], [], some 0⟩)
    else .error .notFound

/-- Options of the command line and `--` are arguments after `--`, and so is an empty word. -/
theorem exec_hands_words_on_dashes :
    Invocation.parse (some "/c") ["exec", "p", "--location=", "--", "echo", "--", "-v", "--help", ""] =
        .ok ⟨.exec "p" (some "") ["echo", "--", "-v", "--help", ""], 0, some "/c", none⟩ ∧
      @Archive.exec echoing ⟨⟨""⟩, [0x2F, 0x64]⟩ [] shelved ["echo", "--", "-v", "--help", ""] =
        (shelved, .ok "-- -v --help \n") := by
  obtain ⟨hparse, -, hruns⟩ := @exec_hands_words_on echoing "p" (by decide) (some "") (some "/c")
    "echo" ["--", "-v", "--help", ""]
  obtain ⟨hasked, -⟩ := hruns ⟨⟨""⟩, [0x2F, 0x64]⟩ [] shelved
  have hcan : Archive.CanAsk ⟨⟨""⟩, [0x2F, 0x64]⟩ shelved ["echo", "--", "-v", "--help", ""]
      [[0x64]] := ⟨⟨0o755, [], by rfl⟩, by decide⟩
  refine ⟨hparse, ?_⟩
  have hended := @Archive.HandsOn.ended echoing _ _ _ _ _ _ (hasked _ hcan)
    { shelved with cwd := [[0x64]] } ⟨Utf8.ofString "-- -v --help \n", [], some 0⟩ (by rfl)
  rw [hended]
  rfl

end Cli

end Depot
