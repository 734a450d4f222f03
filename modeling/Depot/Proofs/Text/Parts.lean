import Depot.Text.Lines
import Mathlib.Tactic.Common

/-! Lists that are gone through, and texts in parts: splitting undoes joining, as long as no part holds
the separator. -/

namespace Depot

/-- What can be decided of each of a few things. -/
theorem forall_mem_of_all {α : Type} {p : α → Prop} [DecidablePred p] {l : List α}
    (h : (l.all fun x => decide (p x)) = true) : ∀ x ∈ l, p x := by
  simpa using h

/-- What holds of pure values, and of two things done one after the other if it holds of both, holds of
a list that is gone through. -/
theorem related_mapM {m n : Type → Type} [Monad m] [LawfulMonad m] [Monad n] [LawfulMonad n]
    (related : ∀ {α : Type}, m α → n α → Prop) (hpure : ∀ {α : Type} (a : α), related (pure a) (pure a))
    (hbind : ∀ {α β : Type} {x : m α} {y : n α} {f : α → m β} {g : α → n β}, related x y →
      (∀ a, related (f a) (g a)) → related (x >>= f) (y >>= g))
    {α β : Type} {f : α → m β} {g : α → n β} {l : List α} (h : ∀ x ∈ l, related (f x) (g x)) :
    related (l.mapM f) (l.mapM g) := by
  induction l with
  | nil => exact hpure []
  | cons x l ih =>
    obtain ⟨hx, hl⟩ := List.forall_mem_cons.mp h
    rw [List.mapM_cons, List.mapM_cons]
    exact hbind hx fun a => hbind (ih hl) fun as => hpure (a :: as)

theorem mapM_congr {α β ε : Type} {f g : α → Except ε β} {xs : List α} (h : ∀ x ∈ xs, f x = g x) :
    xs.mapM f = xs.mapM g :=
  related_mapM (fun r s => r = s) (fun _ => rfl) (fun hx hnext => by rw [hx, funext hnext]) h

theorem exists_mapM_eq_ok_iff {α β ε : Type} {f : α → Except ε β} {xs : List α} :
    (∃ ys, xs.mapM f = .ok ys) ↔ ∀ x ∈ xs, ∃ y, f x = .ok y := by
  induction xs with
  | nil => exact ⟨fun _ => by simp, fun _ => ⟨[], rfl⟩⟩
  | cons x xs ih =>
    rw [List.forall_mem_cons, ← ih, List.mapM_cons]
    cases f x with
    | error e => simp [bind, Except.bind]
    | ok y => cases xs.mapM f <;> simp [bind, Except.bind, pure, Except.pure]

variable {α : Type} [DecidableEq α]

theorem splitAtSep_append_cons (sep : α) (xs ys : List α) :
    splitAtSep sep (xs ++ sep :: ys) = splitAtSep sep xs ++ splitAtSep sep ys := by
  induction xs with
  | nil => simp [splitAtSep]
  | cons x xs ih =>
    simp only [List.cons_append, splitAtSep, ih]
    by_cases hx : x = sep
    · simp [hx]
    · cases hs : splitAtSep sep xs with
      | nil => exact absurd hs (splitAtSep_ne_nil sep xs)
      | cons part parts => simp [hx]

theorem splitAtSep_of_notMem {sep : α} {xs : List α} (h : sep ∉ xs) : splitAtSep sep xs = [xs] := by
  induction xs with
  | nil => rfl
  | cons x xs ih =>
    have hx : x ≠ sep := fun hx => h (hx ▸ List.mem_cons_self)
    simp [splitAtSep, hx, ih fun hm => h (List.mem_cons_of_mem _ hm)]

theorem splitAtSep_joinWith {sep : α} {parts : List (List α)} (hne : parts ≠ [])
    (h : ∀ part ∈ parts, sep ∉ part) : splitAtSep sep (joinWith [sep] parts) = parts := by
  induction parts with
  | nil => exact absurd rfl hne
  | cons part parts ih =>
    have hpart : splitAtSep sep part = [part] := splitAtSep_of_notMem (h part List.mem_cons_self)
    cases parts with
    | nil => exact hpart
    | cons next parts =>
      have hrest := ih (by simp) fun p hp => h p (List.mem_cons_of_mem _ hp)
      rw [joinWith_cons_cons, List.append_assoc, List.singleton_append, splitAtSep_append_cons,
        hpart, hrest]
      rfl

theorem sep_notMem_of_mem_splitAtSep {sep : α} {xs part : List α} (h : part ∈ splitAtSep sep xs) :
    sep ∉ part := by
  induction xs generalizing part with
  | nil => simp_all [splitAtSep]
  | cons x xs ih =>
    simp only [splitAtSep] at h
    split_ifs at h with hx
    · rcases List.mem_cons.mp h with rfl | h
      · simp
      · exact ih h
    · cases hs : splitAtSep sep xs with
      | nil => exact absurd hs (splitAtSep_ne_nil sep xs)
      | cons first parts =>
        rw [hs] at h ih
        rcases List.mem_cons.mp h with rfl | h
        · intro hm
          rcases List.mem_cons.mp hm with rfl | hm
          · exact hx rfl
          · exact ih List.mem_cons_self hm
        · exact ih (List.mem_cons_of_mem _ h)

omit [DecidableEq α] in
theorem mem_joinWith_of_mem {sep : List α} {parts : List (List α)} {part : List α} {x : α}
    (hpart : part ∈ parts) (hx : x ∈ part) : x ∈ joinWith sep parts := by
  induction parts with
  | nil => simp at hpart
  | cons p parts ih =>
    cases parts with
    | nil =>
      rw [List.mem_singleton.mp hpart] at hx
      exact hx
    | cons next parts =>
      rw [joinWith_cons_cons, List.mem_append, List.mem_append]
      rcases List.mem_cons.mp hpart with rfl | hpart
      · exact .inl (.inl hx)
      · exact .inr (ih hpart)

theorem mem_of_mem_splitAtSep {sep x : α} {xs part : List α} (hpart : part ∈ splitAtSep sep xs)
    (hx : x ∈ part) : x ∈ xs := by
  rw [← joinWith_splitAtSep sep xs]
  exact mem_joinWith_of_mem hpart hx

omit [DecidableEq α] in
theorem mem_joinWith {sep : List α} {parts : List (List α)} {x : α} (h : x ∈ joinWith sep parts) :
    x ∈ sep ∨ ∃ part ∈ parts, x ∈ part := by
  induction parts with
  | nil => simp [joinWith] at h
  | cons part parts ih =>
    cases parts with
    | nil => exact .inr ⟨part, List.mem_cons_self, h⟩
    | cons next parts =>
      rw [joinWith_cons_cons, List.mem_append, List.mem_append] at h
      rcases h with (h | h) | h
      · exact .inr ⟨part, List.mem_cons_self, h⟩
      · exact .inl h
      · rcases ih h with h | ⟨p, hp, h⟩
        · exact .inl h
        · exact .inr ⟨p, List.mem_cons_of_mem _ hp, h⟩

end Depot
