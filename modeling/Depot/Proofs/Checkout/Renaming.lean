import Depot.Proofs.Checkout.Tracking

/-!
Scratch directories have other numbers in another run. What two runs say of the same thing differs in
these numbers alone: paths and failures are the same but for the name of a scratch directory.
-/

namespace Depot

open Files

namespace Scratch

/-- Two scratch directories for the same purpose. The numbers have six digits at most, so the names
are equally long. -/
structure Kin (σ τ : Scratch) : Prop where
  purpose : σ.purpose = τ.purpose
  few : σ.number < 10 ^ 6
  few' : τ.number < 10 ^ 6

theorem length_digits {n : Nat} (h : n < 10 ^ 6) : (digits n).length = 6 := by
  have hshort : (Nat.toDigits 10 n).length ≤ 6 := (Nat.length_toDigits_le_iff (by decide) (by decide)).mpr h
  have htext : (toString n).length = (Nat.toDigits 10 n).length := by
    rw [Nat.toString_eq_ofList_toDigits, String.length_ofList]
  rw [digits, List.length_append, List.length_replicate, htext]
  omega

theorem length_name (σ : Scratch) :
    σ.name.length = σ.purpose.word.toList.length + (digits σ.number).length := by
  rw [name, Utf8.ofString, Utf8.length_encode_ascii σ.isAscii_toList_text, toList_text,
    List.length_append]

theorem Kin.length_name_eq {σ τ : Scratch} (h : σ.Kin τ) : σ.name.length = τ.name.length := by
  rw [length_name, length_name, h.purpose, length_digits h.few, length_digits h.few']

theorem getLast?_name (σ : Scratch) : σ.name.getLast? ≠ some Path.slash := fun hlast =>
  σ.isName.2.2.2.1 (List.mem_of_getLast? hlast)

end Scratch

/-- Two paths that are the same but for the number of a scratch directory. -/
inductive Renamed : Bytes → Bytes → Prop
  | same (path : Bytes) : Renamed path path
  | scratch (front back : Bytes) {σ τ : Scratch} (h : σ.Kin τ) :
    Renamed (front ++ σ.name ++ back) (front ++ τ.name ++ back)

namespace Renamed

variable {path path' : Bytes} {σ τ : Scratch}

theorem length_eq (h : Renamed path path') : path.length = path'.length := by
  cases h with
  | same => rfl
  | scratch front back h => simp only [List.length_append, h.length_name_eq]

theorem symm (h : Renamed path path') : Renamed path' path := by
  cases h with
  | same => exact .same path
  | scratch front back h => exact .scratch front back ⟨h.purpose.symm, h.few', h.few⟩

theorem append (h : Renamed path path') (more : Bytes) : Renamed (path ++ more) (path' ++ more) := by
  cases h with
  | same => exact .same _
  | scratch front back h =>
    rw [List.append_assoc _ back, List.append_assoc _ back]
    exact .scratch front (back ++ more) h

theorem prepend (h : Renamed path path') (more : Bytes) : Renamed (more ++ path) (more ++ path') := by
  cases h with
  | same => exact .same _
  | scratch front back h =>
    rw [← List.append_assoc, ← List.append_assoc, ← List.append_assoc, ← List.append_assoc]
    exact .scratch (more ++ front) back h

theorem isOpen_iff (h : Renamed path path') : path = [] ∨ path.getLast? = some Path.slash ↔
    path' = [] ∨ path'.getLast? = some Path.slash := by
  cases h with
  | same => rfl
  | @scratch front back σ τ h =>
    have hopen : ∀ ρ : Scratch, (front ++ ρ.name ++ back = [] ∨
        (front ++ ρ.name ++ back).getLast? = some Path.slash) ↔ back.getLast? = some Path.slash := by
      intro ρ
      have hne : ρ.name ≠ [] := ρ.isName.1
      by_cases hback : back = []
      · subst hback
        simp [hne, ρ.getLast?_name]
      · rw [List.getLast?_append_of_ne_nil _ hback]
        simp [hback]
    rw [hopen, hopen]

theorem isAbsolute_eq (h : Renamed path path') : Path.isAbsolute path = Path.isAbsolute path' := by
  cases h with
  | same => rfl
  | @scratch front back σ τ h =>
    cases front with
    | cons x front => rfl
    | nil =>
      have hrel : ∀ ρ : Scratch, Path.isAbsolute ([] ++ ρ.name ++ back) = false := by
        intro ρ
        obtain ⟨x, rest, hname⟩ := List.exists_cons_of_ne_nil ρ.isName.1
        have habs := ρ.isName.isAbsolute
        rw [hname] at habs ⊢
        exact habs
      rw [hrel, hrel]

theorem join (h : Renamed path path') (more : Bytes) :
    Renamed (Path.join path more) (Path.join path' more) := by
  cases habs : Path.isAbsolute more with
  | true =>
    rw [join_of_isAbsolute habs, join_of_isAbsolute habs]
    exact .same more
  | false =>
    rw [join_of_relative habs, join_of_relative habs, if_congr h.isOpen_iff rfl rfl]
    split_ifs
    · exact h.append more
    · exact (h.append _).append more

theorem below (h : Renamed path path') (place : Place) :
    Renamed (Path.below path place) (Path.below path' place) := h.join _

theorem join_left (h : Renamed path path') (base : Bytes) :
    Renamed (Path.join base path) (Path.join base path') := by
  cases habs : Path.isAbsolute path with
  | true =>
    rw [join_of_isAbsolute habs, join_of_isAbsolute (h.isAbsolute_eq ▸ habs)]
    exact h
  | false =>
    rw [join_of_relative habs, join_of_relative (h.isAbsolute_eq ▸ habs)]
    exact h.prepend _

theorem pathOf (front back : Place) (h : σ.Kin τ) :
    Renamed (Disk.pathOf (front ++ σ.name :: back)) (Disk.pathOf (front ++ τ.name :: back)) := by
  have hjoin : ∀ front : Place, Renamed (joinWith [Path.slash] (front ++ σ.name :: back))
      (joinWith [Path.slash] (front ++ τ.name :: back)) := by
    intro front
    induction front with
    | nil =>
      cases back with
      | nil => simpa [joinWith] using Renamed.scratch [] [] h
      | cons n back =>
        simp only [List.nil_append, joinWith_cons_cons, List.append_assoc]
        exact .scratch [] _ h
    | cons n front ih =>
      have hcons : ∀ ρ : Scratch, joinWith [Path.slash] (n :: front ++ ρ.name :: back) =
          n ++ [Path.slash] ++ joinWith [Path.slash] (front ++ ρ.name :: back) := by
        intro ρ
        cases front <;> simp [joinWith_cons_cons]
      rw [hcons, hcons]
      exact ih.prepend _
  exact (hjoin front).prepend [Path.slash]

theorem of_kin (h : σ.Kin τ) (site : Site) (cwd : Place) :
    Renamed (σ.path site cwd) (τ.path site cwd) := by
  have hname : Renamed σ.name τ.name := by simpa using Renamed.scratch [] [] h
  have habs : Path.isAbsolute σ.name = false := σ.isName.isAbsolute
  rw [Scratch.path, Scratch.path, h.purpose]
  exact (hname.join_left _).join_left _

theorem checkout (h : σ.Kin τ) (seat : Seat) (names : Place) :
    Renamed (Disk.pathOf (seat.checkout σ ++ names)) (Disk.pathOf (seat.checkout τ ++ names)) := by
  have hplace : ∀ ρ : Scratch, seat.checkout ρ ++ names =
      seat.area ρ.purpose.area ++ ρ.name :: (Phase.checkoutName :: names) := by
    simp [Seat.checkout, Seat.scratch, Seat.entry]
  rw [hplace, hplace, h.purpose]
  exact .pathOf _ _ h

end Renamed

/-- Two failures that are the same but for the number of a scratch directory in a path. -/
inductive Failure.Alike : Failure → Failure → Prop
  | same (f : Failure) : Alike f f
  | io (before after : String) (cause : Cause) {path path' : Bytes} (h : Renamed path path') :
    Alike (.io (before ++ Utf8.toStringLossy path ++ after) cause)
      (.io (before ++ Utf8.toStringLossy path' ++ after) cause)
  | brokenLink (target : Bytes) {path path' : Bytes} (h : Renamed path path') :
    Alike (.brokenLink path target) (.brokenLink path' target)
  | pathInvalid (reason : String) {path path' : Bytes} (h : Renamed path path') :
    Alike (.pathInvalid path reason) (.pathInvalid path' reason)
  | command (before : String) (code : Option Int) (output : String) {path path' : Bytes}
    (h : Renamed path path') : Alike (.commandFailed (before ++ Utf8.toStringLossy path) code output)
      (.commandFailed (before ++ Utf8.toStringLossy path') code output)

/-- Two runs come to the same: results that agree, or failures that are alike. -/
inductive Concur {α β : Type} (agree : α → β → Prop) : Except Failure α → Except Failure β → Prop
  | ok {a : α} {b : β} (h : agree a b) : Concur agree (.ok a) (.ok b)
  | error {f f' : Failure} (h : f.Alike f') : Concur agree (.error f) (.error f')

namespace Failure.Alike

variable {path path' : Bytes} {f f' : Failure}

theorem symm (h : f.Alike f') : f'.Alike f := by
  cases h with
  | same => exact .same f
  | io before after cause h => exact .io before after cause h.symm
  | brokenLink target h => exact .brokenLink target h.symm
  | pathInvalid reason h => exact .pathInvalid reason h.symm
  | command before code output h => exact .command before code output h.symm

theorem io_end (before : String) (cause : Cause) (h : Renamed path path') :
    Alike (.io (before ++ Utf8.toStringLossy path) cause)
      (.io (before ++ Utf8.toStringLossy path') cause) := by
  have hio := Alike.io before "" cause h
  rwa [String.append_empty, String.append_empty] at hio

theorem ofErrno (before : String) (e : Errno) (h : Renamed path path') :
    Alike (.ofErrno (before ++ Utf8.toStringLossy path) e)
      (.ofErrno (before ++ Utf8.toStringLossy path') e) := io_end before _ h

end Failure.Alike

namespace Concur

variable {α β γ δ : Type} {agree : α → β → Prop} {agree' : γ → δ → Prop} {r : Except Failure α}
  {r' : Except Failure β}

theorem bind {f : α → Except Failure γ} {g : β → Except Failure δ} (h : Concur agree r r')
    (hnext : ∀ a b, agree a b → Concur agree' (f a) (g b)) : Concur agree' (r >>= f) (r' >>= g) := by
  cases h with
  | ok h => exact hnext _ _ h
  | error h => exact .error h

theorem mono {agree' : α → β → Prop} (h : Concur agree r r')
    (hagree : ∀ a b, agree a b → agree' a b) : Concur agree' r r' := by
  cases h with
  | ok h => exact .ok (hagree _ _ h)
  | error h => exact .error h

theorem symm (h : Concur agree r r') : Concur (fun b a => agree a b) r' r := by
  cases h with
  | ok h => exact .ok h
  | error h => exact .error h.symm

theorem mapM {f g : γ → Except Failure α} {l : List γ} (h : ∀ x ∈ l, Concur Eq (f x) (g x)) :
    Concur Eq (l.mapM f) (l.mapM g) :=
  related_mapM (Concur Eq) (fun _ => .ok rfl) (fun hx hnext => hx.bind fun a _ ha => ha ▸ hnext a) h

end Concur

end Depot
