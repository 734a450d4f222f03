import Depot.Proofs.Files.Writing
import Depot.Proofs.Settings.Document
import Depot.Settings.File

/-! Settings that are saved to a file load back from it. -/

namespace Depot.Settings

open Files

/-- A file with the text of settings that keep the rules loads as these settings. -/
theorem load_of_read {s default : Settings} {d : Disk} {path : Bytes}
    (hrules : s.validate = .ok ()) (hrepository : Utf8.IsValid s.repository)
    (hroot : Utf8.IsValid s.cacheRoot) (hexists : d.doesExist path = true)
    (hread : d.read path = .ok (Utf8.encode s.text)) : load d default path = .ok s := by
  rw [load, if_pos hexists, ofFile, hread]
  simp only [Utf8.decode?_encode, parse?_text, ofEntries?_entries default hrepository hroot, hrules]
  rfl

/-- Saved settings load back, whatever texts are in them and whatever the defaults are. The directory
of the file must be there or can be made, and the path must lead to nothing yet, or to a file that its
owner may read and write. -/
theorem load_save {s : Settings} (hrules : s.validate = .ok ())
    (hrepository : Utf8.IsValid s.repository) (hroot : Utf8.IsValid s.cacheRoot)
    {d d₁ : Disk} (hd : d.root.IsSound) {path parent : Bytes} (hparent : Path.parent? path = some parent)
    (hdirs : d.makeDirs parent = .ok d₁) {found : Found} (hfind : d₁.find true path = .ok found)
    (hfile : found.node = none ∨
      ∃ mode data, found.node = some (.file mode data) ∧ Disk.IsOwned mode) (default : Settings) :
    ∃ d', save s d path = (d', .ok ()) ∧ load d' default path = .ok s := by
  obtain ⟨d', hwrite, hexists, hread⟩ :=
    Disk.read_write (Disk.isSound_makeDirs hd hdirs) hfind hfile (Utf8.encode s.text)
  refine ⟨d', ?_, load_of_read hrules hrepository hroot hexists hread⟩
  simp only [save, hparent, hdirs, Except.mapError, text?_eq hrepository hroot, hwrite]

def sample : Settings where
  logFormat := "\"json\" or 'text'\r\n\t\\\x01"
  repository := Utf8.ofString "/srv/\"é\"\n'''"
  cacheRoot := Utf8.ofString "/var/\\cache\x7f"
  packages := [⟨"a", []⟩, ⟨"b/c", [⟨"n'\"\"\"\n", "x/y"⟩, ⟨"default", "."⟩]⟩, ⟨"#", []⟩]

theorem load_save_sample :
    ∃ d', save sample ⟨.dir 0o755 [], []⟩ (Utf8.ofString "/c/s.toml") = (d', .ok ()) ∧
      load d' ⟨⟨[], []⟩, "", []⟩ (Utf8.ofString "/c/s.toml") = .ok sample :=
  load_save (by decide) (by decide) (by decide) (Node.isSound_dir_iff.mpr ⟨.nil, by simp⟩)
    (show Path.parent? (Utf8.ofString "/c/s.toml") = some (Utf8.ofString "/c") from rfl) rfl rfl (.inl rfl) _

end Depot.Settings
