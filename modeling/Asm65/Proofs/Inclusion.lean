import Asm65.Source

/-!
# Which file a name includes

The table of files only grows while a run reads files from disk. As it grows, an included name may come to stand
for another file: one that has the name as its path is preferred to one in the folder of the including file. Where
no name can stand for two files, all passes of a run include the same ones.
-/

namespace Asm65
set_option autoImplicit false

@[simp] theorem Path.same_self (p : Path) : p.same p = true := by simp [same]

namespace Disk

theorem exists_read_eq_error {d : Disk} (none : d.files = ∅) (p : Path) : ∃ failure, d.read p = .error failure := by
  unfold read
  cases d.locate p with
  | error failure => exact ⟨failure, rfl⟩
  | ok place =>
    cases place with
    | folder => exact ⟨.isFolder, rfl⟩
    | vacant name => exact ⟨.missing, rfl⟩
    | file name => exact ⟨.missing, by simp [none, bind, Except.bind]⟩

theorem exists_readText_eq_error {d : Disk} (none : d.files = ∅) (p : Path) :
    ∃ failure, d.readText p = .error failure := by
  obtain ⟨failure, failed⟩ := exists_read_eq_error none p
  exact ⟨failure, by rw [readText, failed]; rfl⟩

end Disk

namespace SourceTable

variable {given t u v : SourceTable} {id including : Nat} {path : Path} {name : String}

/-- All files keep their numbers, and more may have been added. -/
def Within (t u : SourceTable) : Prop := ∃ more, u.files = t.files ++ more

namespace Within

theorem refl (t : SourceTable) : t.Within t := ⟨#[], by simp⟩

theorem trans (h : t.Within u) (k : u.Within v) : t.Within v := by
  obtain ⟨more, same⟩ := h
  obtain ⟨more', same'⟩ := k
  exact ⟨more ++ more', by rw [same', same, Array.append_assoc]⟩

theorem get? (h : t.Within u) {file : SourceFile} (found : t.get? id = some file) : u.get? id = some file := by
  obtain ⟨more, same⟩ := h
  obtain ⟨room, -⟩ := Array.getElem?_eq_some_iff.1 found
  rw [SourceTable.get?, same, Array.getElem?_append_left room]
  exact found

theorem path? (h : t.Within u) (found : t.path? id = some path) : u.path? id = some path := by
  obtain ⟨file, here, rfl⟩ := Option.map_eq_some_iff.1 found
  exact Option.map_eq_some_iff.2 ⟨file, h.get? here, rfl⟩

theorem text? (h : t.Within u) {text : String} (found : t.text? id = some text) : u.text? id = some text := by
  obtain ⟨file, here, rfl⟩ := Option.map_eq_some_iff.1 found
  exact Option.map_eq_some_iff.2 ⟨file, h.get? here, rfl⟩

theorem idOf? (h : t.Within u) (found : t.idOf? path = some id) : u.idOf? path = some id := by
  obtain ⟨more, same⟩ := h
  rw [SourceTable.idOf?] at found ⊢
  rw [same, Array.findIdx?_append, found]
  rfl

end Within

/-- A file that is loaded is found under its path afterwards. -/
theorem of_load {disk : Disk} (h : t.load disk path = .ok (id, u)) : t.Within u ∧ u.idOf? path = some id := by
  unfold load at h
  split at h
  · rename_i found
    cases h
    exact ⟨.refl t, found⟩
  · rename_i absent
    split at h <;> cases h
    rename_i text read
    refine ⟨⟨#[.ofText path text], by simp⟩, ?_⟩
    rw [idOf?, Array.findIdx?_push]
    rw [idOf?] at absent
    simp [absent, SourceFile.ofText, size]

/-- No file outside the table can be read. -/
def Sealed (t : SourceTable) (disk : Disk) : Prop :=
  ∀ path, t.idOf? path = none → ∃ failure, disk.readText path = .error failure

theorem sealed_of_empty {disk : Disk} (none : disk.files = ∅) (t : SourceTable) : t.Sealed disk :=
  fun path _ => Disk.exists_readText_eq_error none path

theorem Sealed.eq_of_load {disk : Disk} (closed : t.Sealed disk) (h : t.load disk path = .ok (id, u)) : u = t := by
  unfold load at h
  split at h
  · cases h
    rfl
  · rename_i absent
    obtain ⟨failure, failed⟩ := closed path absent
    rw [failed] at h
    cases h

/-- No name stands for two files of the table, unless the one that has it as its path was given from the start. -/
def NamesOneFile (given t : SourceTable) : Prop :=
  ∀ including folder name a b, (t.path? including).bind (·.parent?) = some folder → t.idOf? ⟨name⟩ = some a →
    t.idOf? (folder.join ⟨name⟩) = some b → (given.idOf? ⟨name⟩).isSome ∨ a = b

theorem namesOneFile_self (t : SourceTable) : t.NamesOneFile t :=
  fun _ _ _ _ _ _ found _ => .inl (found ▸ rfl)

/-- Wherever in a run a name is included, it stands for the file that it stands for at the end. -/
theorem idOf?_resolveInclude {disk : Disk} (one : given.NamesOneFile v) (before : given.Within t)
    (h : t.load disk (t.resolveInclude including name) = .ok (id, u)) (after : u.Within v) :
    v.idOf? (v.resolveInclude including name) = some id := by
  obtain ⟨grows, loaded⟩ := of_load h
  have found := after.idOf? loaded
  have within := grows.trans after
  have preferred (own : v.idOf? ⟨name⟩ = some id) : v.idOf? (v.resolveInclude including name) = some id := by
    unfold resolveInclude
    dsimp only
    rw [if_pos (by simp [own])]
    exact own
  unfold resolveInclude at h loaded found
  dsimp only at h loaded found
  split at found
  · exact preferred found
  · rename_i absent
    rw [Bool.or_eq_true, not_or, Bool.not_eq_true, Option.not_isSome_iff_eq_none] at absent
    split at found
    · rename_i folder inFolder
      have inFolder' : (v.path? including).bind (·.parent?) = some folder := by
        obtain ⟨path, here, parent⟩ := Option.bind_eq_some_iff.1 inFolder
        exact Option.bind_eq_some_iff.2 ⟨path, within.path? here, parent⟩
      -- a file that has come to have the name as its path must be the one that the folder gave
      cases own : v.idOf? ⟨name⟩ with
      | none =>
        unfold resolveInclude
        dsimp only
        rw [if_neg (by simp [own, absent.1]), inFolder']
        exact found
      | some a =>
        obtain known | rfl := one including folder name a id inFolder' own found
        · obtain ⟨k, known⟩ := Option.isSome_iff_exists.1 known
          have there := before.idOf? known
          rw [absent.2] at there
          cases there
        · exact preferred own
    · exact preferred found

end SourceTable

end Asm65
