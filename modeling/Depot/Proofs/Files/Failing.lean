import Depot.Proofs.Files.Apart

/-!
Why a path leads to nothing. A way that follows links either comes to its end or gets stuck, and where
it gets stuck decides the reason that is given.
-/

namespace Depot.Files

/-- What is no directory lies off a directory if the place above it does. -/
theorem Node.IsDirAt.not_prefix_concat {root : Node} {top place : Place} {n : Name}
    (htop : root.IsDirAt top) (hplace : ¬ top <+: place) (h : ¬ root.IsDirAt (place ++ [n])) :
    ¬ top <+: place ++ [n] := by
  intro hp
  rcases List.prefix_concat_iff.mp hp with heq | hprefix
  · exact h (heq ▸ htop)
  · exact hplace hprefix

/-- How a way gets stuck that follows links: at a name that has no entry, at a node that is no
directory, at a name that is too long, or at a link when no more may be followed. -/
inductive Way.Fails (root : Node) (w : Way) : Errno → Prop
  | missing {links : Nat} {place : Place} {n : Name} {rest : List Hop}
    (h : Steps root w ⟨links, place, .name n :: rest⟩) (hdir : root.IsDirAt place)
    (hn : n.length ≤ 255) (hnone : root.get? (place ++ [n]) = none) : Fails root w .notFound
  | blocked {links : Nat} {place : Place} {hop : Hop} {rest : List Hop} {x : Node}
    (h : Steps root w ⟨links, place, hop :: rest⟩) (hx : root.get? place = some x)
    (hnot : x.isDir = false) : Fails root w .notDirectory
  | long {links : Nat} {place : Place} {n : Name} {rest : List Hop}
    (h : Steps root w ⟨links, place, .name n :: rest⟩) (hdir : root.IsDirAt place)
    (hn : 255 < n.length) : Fails root w .nameTooLong
  | looped {place : Place} {n : Name} {rest : List Hop} {target : Bytes}
    (h : Steps root w ⟨0, place, .name n :: rest⟩) (hn : n.length ≤ 255)
    (hlink : root.get? (place ++ [n]) = some (.link target)) : Fails root w .tooManyLinks

namespace Way.Fails

variable {root root' : Node} {top : Place} {w w' : Way} {e : Errno}

theorem of_step (hstep : Step root w w') (h : Fails root w' e) : Fails root w e := by
  cases h with
  | missing h hdir hn hnone => exact .missing (.head hstep h) hdir hn hnone
  | blocked h hx hnot => exact .blocked (.head hstep h) hx hnot
  | long h hdir hn => exact .long (.head hstep h) hdir hn
  | looped h hn hlink => exact .looped (.head hstep h) hn hlink

/-- A way keeps to its reason whatever is in a directory that it keeps away from. -/
theorem frame (hsame : root.SameOff top root') (hdir : root.IsDirAt top)
    (hw : Avoids root top w) (h : Fails root w e) : Fails root' w e := by
  have hsteps : ∀ {v : Way}, Steps root w v → Steps root' w v := (Steps.frame hsame hdir hw ·)
  cases h with
  | @missing links place n rest h hplace hn hnone =>
    have hoff : ¬ top <+: place ++ [n] :=
      hdir.not_prefix_concat (hw _ h) fun ⟨_, _, hx⟩ => by simp [hnone] at hx
    refine .missing (hsteps h) ((hsame.isDirAt (hw _ h)).mp hplace) hn ?_
    rw [← Node.look_eq_none_iff, ← hsame _ hoff, Node.look_eq_none_iff]
    exact hnone
  | blocked h hx hnot =>
    refine .blocked (hsteps h) ?_ hnot
    rw [← Node.look_eq_some_iff hnot, ← hsame _ (hw _ h), Node.look_eq_some_iff hnot]
    exact hx
  | long h hplace hn => exact .long (hsteps h) ((hsame.isDirAt (hw _ h)).mp hplace) hn
  | @looped place n rest target h hn hlink =>
    have hoff : ¬ top <+: place ++ [n] :=
      hdir.not_prefix_concat (hw _ h) fun ⟨_, _, hx⟩ => by simp [hlink] at hx
    have hlink' : root'.get? (place ++ [n]) = some (.link target) := by
      rw [← Node.look_eq_some_iff rfl, ← hsame _ hoff, Node.look_eq_some_iff rfl]
      exact hlink
    exact .looped (hsteps h) hn hlink'

end Way.Fails

namespace Disk

variable {d : Disk} {path base target : Bytes} {home names : Place} {n : Name} {e : Errno}

end Disk

end Depot.Files
