import Depot.Proofs.Checkout.Absence
import Depot.Proofs.Checkout.Locking
import Depot.Proofs.Path.Normal

/-!
A checkout works with the normal form of its path. So nothing that a builder does depends on how a
path is spelled.
-/

namespace Depot

variable {site : Site} {me : Nat} {w w' : World} {b b' : Builder} {p p' : Phase} {normal : String}

namespace Phase

/-- The normal form of the path that a checkout is for. -/
def path? : Phase → Option String
  | start _ path => (Path.normalize path).toOption
  | prepare _ path | resolve _ path => some path
  | p => p.key?.map (·.path)

theorem path?_start (branch path : String) :
    (start branch path).path? = (Path.normalize path).toOption := rfl

theorem path?_of_key? {key : CheckoutKey} (h : p.key? = some key) : p.path? = some key.path := by
  cases p
  case start | prepare | resolve => cases h
  all_goals exact congrArg (Option.map (·.path)) h

theorem start_step {path : String} (h : Path.normalize path = .ok normal) (site : Site) (me : Nat)
    (w : World) (b : Builder) (branch : String) :
    (start branch path).step site me w b = (w, b, prepare branch normal) := by
  unfold step
  simp only [h]

theorem path?_step (h : p.step site me w b = (w', b', p')) (hp : p'.path? = some normal) :
    p.path? = some normal := by
  unfold step at h
  split at h
  all_goals
    try dsimp only at h
    repeat' split at h
    all_goals
      obtain ⟨-, -, rfl⟩ := Prod.mk.inj h
      first
        | exact hp
        -- The path is put into its normal form.
        | rename_i heq
          exact (congrArg Except.toOption heq).trans hp
        | cases hp

theorem path?_run {n : Nat} (h : (run site me n w b p).2.2.path? = some normal) :
    p.path? = some normal := by
  induction n generalizing w b p with
  | zero => exact h
  | succ n ih =>
    rcases hstep : p.step site me w b with ⟨w', b', p'⟩
    rw [run_succ hstep] at h
    exact path?_step hstep (ih h)

end Phase

/-- A builder that is asked for the one path does what it does when it is asked for the other: every
step is the same, in every world and for every builder, and so is the answer. -/
structure AskedAlike (path other : String) : Prop where
  step : ∀ (site : Site) (me : Nat) (w : World) (b : Builder) (branch : String),
    Phase.step site me w b (.start branch path) = Phase.step site me w b (.start branch other)
  key : ∀ (site : Site) (me n : Nat) (w : World) (b : Builder) (branch : String),
    (Phase.run site me n w b (.start branch path)).2.2.key? =
      (Phase.run site me n w b (.start branch other)).2.2.key?
  outcome : ∀ (site : Site) (branch : String) (w : World) (b : Builder),
    Builder.checkout site branch path w b = Builder.checkout site branch other w b

/-- Only the normal form of a path counts. -/
theorem askedAlike_of_normalize {path other : String} (h : Path.normalize path = .ok normal)
    (h' : Path.normalize other = .ok normal) : AskedAlike path other := by
  have hstep (site : Site) (me : Nat) (w : World) (b : Builder) (branch : String) :
      Phase.step site me w b (.start branch path) = Phase.step site me w b (.start branch other) := by
    rw [Phase.start_step h, Phase.start_step h']
  have hrun (site : Site) (me n : Nat) (w : World) (b : Builder) (branch : String) :
      Phase.run site me (n + 1) w b (.start branch path) =
        Phase.run site me (n + 1) w b (.start branch other) := by
    rw [Phase.run_succ (hstep site me w b branch), ← Phase.run_succ (p := .start branch other) rfl]
  constructor
  · exact hstep
  · intro site me n w b branch
    cases n with
    | zero => rfl
    | succ n => rw [hrun]
  · intro site branch w b
    unfold Builder.checkout Builder.someSteps
    rw [hrun]

/-- A path is accepted exactly if it does not begin with a slash and has no NUL and no part `..`. Its
normal form is the root or a list of names, is its own normal form, and is shared by the paths with
the same names and no others. These lead to the same places, builders answer them alike and look
them up under one key, and all but the root are one package id. -/
theorem normalize_isCanonical (path : String) :
    ((∃ normal, Path.normalize path = .ok normal) ↔
      ¬ ['/'] <+: path.toList ∧ '\x00' ∉ path.toList ∧ ['.', '.'] ∉ splitAtSep '/' path.toList) ∧
    ∀ normal, Path.normalize path = .ok normal →
      Path.IsNormal normal ∧ Path.normalize normal = .ok normal ∧
      Path.SamePlace path normal ∧ AskedAlike path normal ∧
      (∀ other normal', Path.normalize other = .ok normal' →
        (normal' = normal ↔ Path.names other.toList = Path.names path.toList) ∧
        (normal' = normal → Path.SamePlace other path ∧ AskedAlike other path)) ∧
      (∀ site me n w b branch key,
        (Phase.run site me n w b (.start branch path)).2.2.key? = some key → key.path = normal) ∧
      (normal ≠ "." →
        TargetId.parse path = .ok ⟨normal⟩ ∧ TargetId.parse normal = .ok ⟨normal⟩) ∧
      (normal = "." → ∀ text ∈ [path, normal], TargetId.parse text =
        .error (.pathInvalid (Utf8.ofString text) "package id must not be empty")) := by
  constructor
  · rw [← Path.fault?_eq_none_iff]
    constructor
    · rintro ⟨normal, h⟩
      exact (Path.normalize_eq_ok_iff.mp h).1
    · intro hfault
      exact ⟨_, Path.normalize_eq_ok_iff.mpr ⟨hfault, rfl⟩⟩
  · intro normal h
    have hnormal := Path.normalize_normal h
    have halike : ∀ other, Path.normalize other = .ok normal →
        Path.SamePlace other path ∧ AskedAlike other path := by
      intro other h'
      have hnames := (Path.normal_eq_normal_iff h' h).mp rfl
      obtain ⟨hfault, -⟩ := Path.normalize_eq_ok_iff.mp h
      obtain ⟨hfault', -⟩ := Path.normalize_eq_ok_iff.mp h'
      exact ⟨Path.samePlace_of_names hfault' hfault hnames, askedAlike_of_normalize h' h⟩
    have hplace : Path.SamePlace path normal := by
      have hnames := (Path.normal_eq_normal_iff h hnormal).mp rfl
      obtain ⟨hfault, -⟩ := Path.normalize_eq_ok_iff.mp h
      obtain ⟨hfault', -⟩ := Path.normalize_eq_ok_iff.mp hnormal
      exact Path.samePlace_of_names hfault hfault' hnames
    refine ⟨Path.isNormal_of_normalize h, hnormal, hplace, askedAlike_of_normalize h hnormal, ?_, ?_,
      ?_, ?_⟩
    · intro other normal' h'
      refine ⟨Path.normal_eq_normal_iff h' h, ?_⟩
      rintro rfl
      exact halike other h'
    · intro site me n w b branch key hkey
      have hpath := Phase.path?_run (Phase.path?_of_key? hkey)
      rw [Phase.path?_start, h] at hpath
      exact (Option.some.inj hpath).symm
    · intro hroot
      rw [TargetId.parse_of_normalize h, TargetId.parse_of_normalize hnormal, if_neg hroot,
        if_neg hroot]
      exact ⟨rfl, rfl⟩
    · intro hroot text htext
      have htext' : Path.normalize text = .ok normal := by
        rcases List.mem_cons.mp htext with rfl | htext
        · exact h
        · rw [List.mem_singleton.mp htext]
          exact hnormal
      rw [TargetId.parse_of_normalize htext', if_pos hroot]

/-- A path with a leading `.`, a double slash and a `.` at its end. -/
theorem normalize_isCanonical_dotted :
    Path.normalize "./a//b/." = .ok "a/b" ∧ Path.SamePlace "./a//b/." "a/b" ∧
      AskedAlike "./a//b/." "a/b" ∧ TargetId.parse "./a//b/." = TargetId.parse "a/b" := by
  have h : Path.normalize "./a//b/." = .ok "a/b" := by decide
  obtain ⟨-, hall⟩ := normalize_isCanonical "./a//b/."
  obtain ⟨-, -, hplace, hasked, -, -, hid, -⟩ := hall "a/b" h
  obtain ⟨hparse, hparse'⟩ := hid (by decide)
  exact ⟨h, hplace, hasked, hparse.trans hparse'.symm⟩

end Depot
