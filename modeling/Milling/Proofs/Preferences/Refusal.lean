import Milling.Preferences.File
/-!
Preferences that are not written to a file.

The system may leave anything behind when a write fails, and `Disk` allows for that. Preferences
that are refused and paths that tell no format are found out before a write begins (`save_cases`),
so neither touches the disk (`keepsDisk`).
-/

namespace Milling

/-- What files are written to. A failed write may have changed it too. -/
class Disk (δ : Type) where
  write : δ → String → String → Except FileFault Unit × δ

/-- A tree goes on as what an operation gives, or as it was if that fails. -/
def FileTree.after {ε : Type} (tree : FileTree) : Except ε FileTree → Except ε Unit × FileTree
  | .ok written => (.ok (), written)
  | .error fault => (.error fault, tree)

instance : Disk FileTree where
  write tree path text := tree.after (tree.write path text)

namespace Preferences

variable {δ : Type} [Disk δ]

/-- Writes preferences to a file of a disk. -/
def save (p : Preferences) (disk : δ) (path : String) : Except Fault Unit × δ :=
  match p.validate with
  | .error fault => (.error fault, disk)
  | .ok () =>
    match SettingsFormat.ofPath path with
    | .error fault => (.error fault, disk)
    | .ok format =>
      let (written, disk) := Disk.write disk path (format.write p)
      (written.mapError fun fault => .save (path ++ ": " ++ fault.message), disk)

/-- On a tree this is `toFile`. -/
theorem save_tree (p : Preferences) (tree : FileTree) (path : String) :
    p.save tree path = tree.after (p.toFile tree path) := by
  unfold save toFile
  cases p.validate with
  | error fault => rfl
  | ok =>
    cases SettingsFormat.ofPath path with
    | error fault => rfl
    | ok format =>
      change _ = tree.after ((tree.write path (format.write p)).mapError _)
      dsimp only [Disk.write]
      cases tree.write path (format.write p) <;> rfl

/-! ### What is refused -/

/-- The preferences may be written to a file. Edges and heights that are no number are let
through. -/
structure Usable (p : Preferences) : Prop where
  toolDiameter : Binary64.isPositive p.toolDiameter = true
  speed : Binary64.isPositive p.speed = true
  dimensions : ¬ p.workpiece.dimensions.x ≤ 0.0 ∧ ¬ p.workpiece.dimensions.y ≤ 0.0 ∧
    ¬ p.workpiece.dimensions.z ≤ 0.0
  depthWindow : ¬ p.depthWindow.max < p.depthWindow.min

/-- Either nothing is wrong with the preferences, or one of their settings is named. -/
theorem validate_cases (p : Preferences) :
    (p.Usable ∧ p.validate = .ok ()) ∨
      (¬ p.Usable ∧ ∃ key why, p.validate = .error (.invalid key why)) := by
  unfold validate
  dsimp only
  split
  · rename_i hdiameter
    refine .inr ⟨fun h => ?_, _, _, rfl⟩
    rw [h.toolDiameter] at hdiameter
    cases hdiameter
  split
  · rename_i hspeed
    refine .inr ⟨fun h => ?_, _, _, rfl⟩
    rw [h.speed] at hspeed
    cases hspeed
  split
  · rename_i hdimensions
    refine .inr ⟨fun h => ?_, _, _, rfl⟩
    simp [h.dimensions] at hdimensions
  split
  · rename_i hwindow
    exact .inr ⟨fun h => h.depthWindow hwindow, _, _, rfl⟩
  · rename_i hdiameter hspeed hdimensions hwindow
    simp only [Bool.or_eq_true, decide_eq_true_eq, not_or, and_assoc] at hdimensions
    exact .inl ⟨⟨by simpa using hdiameter, by simpa using hspeed, hdimensions, hwindow⟩, rfl⟩

/-- The format of a file goes by its extension, and there are two. -/
theorem format_cases (path : String) :
    (Path.extension? path ∈ [some "json", some "toml"] ∧
        ∃ format, SettingsFormat.ofPath path = .ok format) ∨
      (Path.extension? path ∉ [some "json", some "toml"] ∧
        ∃ detail, SettingsFormat.ofPath path = .error (.format detail)) := by
  unfold SettingsFormat.ofPath
  split
  · rename_i hextension
    exact .inl ⟨by simp [hextension], _, rfl⟩
  · rename_i hextension
    exact .inl ⟨by simp [hextension], _, rfl⟩
  · rename_i hjson htoml
    refine .inr ⟨?_, _, rfl⟩
    rw [List.mem_cons, List.mem_singleton, not_or]
    exact ⟨hjson, htoml⟩

/-! ### Saving -/

section Save

variable (p : Preferences) (disk : δ) (path : String)

/-- The disk is written only with usable preferences and under a name that tells the format. -/
theorem save_cases :
    (¬ p.Usable ∧ ∃ key why, p.save disk path = (.error (.invalid key why), disk)) ∨
      (p.Usable ∧ Path.extension? path ∉ [some "json", some "toml"] ∧
        ∃ detail, p.save disk path = (.error (.format detail), disk)) ∨
      (p.Usable ∧ Path.extension? path ∈ [some "json", some "toml"] ∧
        ((p.save disk path).1 = .ok () ∨ ∃ detail, (p.save disk path).1 = .error (.save detail))) := by
  unfold save
  rcases p.validate_cases with ⟨husable, hvalid⟩ | ⟨hunusable, key, why, hvalid⟩
  · rw [hvalid]
    rcases format_cases path with ⟨hknown, format, hformat⟩ | ⟨hunknown, detail, hformat⟩
    · rw [hformat]
      refine .inr (.inr ⟨husable, hknown, ?_⟩)
      dsimp only
      cases (Disk.write disk path (format.write p)).1 with
      | ok => exact .inl rfl
      | error fault => exact .inr ⟨_, rfl⟩
    · rw [hformat]
      exact .inr (.inl ⟨husable, hunknown, detail, rfl⟩)
  · rw [hvalid]
    exact .inl ⟨hunusable, key, why, rfl⟩

/-- A setting is refused exactly if the preferences cannot be used. -/
theorem save_invalid_iff :
    (∃ key why, (p.save disk path).1 = .error (.invalid key why)) ↔ ¬ p.Usable := by
  rcases p.save_cases disk path with ⟨hunusable, key, why, hsave⟩ | ⟨husable, -, detail, hsave⟩ |
    ⟨husable, -, hsave⟩
  · exact iff_of_true ⟨key, why, congrArg Prod.fst hsave⟩ hunusable
  · rw [hsave]
    exact iff_of_false nofun fun h => h husable
  · refine iff_of_false ?_ fun h => h husable
    rintro ⟨key, why, hinvalid⟩
    rw [hinvalid] at hsave
    rcases hsave with hsave | ⟨detail, hsave⟩ <;> cases hsave

/-- The format is refused exactly if the preferences can be used and the extension tells none. -/
theorem save_format_iff :
    (∃ detail, (p.save disk path).1 = .error (.format detail)) ↔
      p.Usable ∧ Path.extension? path ∉ [some "json", some "toml"] := by
  rcases p.save_cases disk path with ⟨hunusable, key, why, hsave⟩ |
    ⟨husable, hunknown, detail, hsave⟩ | ⟨-, hknown, hsave⟩
  · rw [hsave]
    exact iff_of_false nofun fun h => hunusable h.1
  · exact iff_of_true ⟨detail, congrArg Prod.fst hsave⟩ ⟨husable, hunknown⟩
  · refine iff_of_false ?_ fun h => h.2 hknown
    rintro ⟨detail, hformat⟩
    rw [hformat] at hsave
    rcases hsave with hsave | ⟨detail, hsave⟩ <;> cases hsave

/-- Neither a setting that is refused nor a name that tells no format changes the disk. -/
structure KeepsDisk : Prop where
  invalid_iff : (∃ key why, (p.save disk path).1 = .error (.invalid key why)) ↔ ¬ p.Usable
  invalid : ∀ key why, (p.save disk path).1 = .error (.invalid key why) →
    (p.save disk path).2 = disk
  format_iff : (∃ detail, (p.save disk path).1 = .error (.format detail)) ↔
    p.Usable ∧ Path.extension? path ∉ [some "json", some "toml"]
  format : ∀ detail, (p.save disk path).1 = .error (.format detail) → (p.save disk path).2 = disk

/-- A refused request does not get as far as the disk. -/
theorem keepsDisk : p.KeepsDisk disk path where
  invalid_iff := p.save_invalid_iff disk path
  invalid key why hinvalid := by
    have hunusable := (p.save_invalid_iff disk path).mp ⟨key, why, hinvalid⟩
    rcases p.save_cases disk path with ⟨-, _, _, hsave⟩ | ⟨husable, -⟩ | ⟨husable, -⟩
    · rw [hsave]
    · exact absurd husable hunusable
    · exact absurd husable hunusable
  format_iff := p.save_format_iff disk path
  format detail hformat := by
    obtain ⟨husable, hunknown⟩ := (p.save_format_iff disk path).mp ⟨detail, hformat⟩
    rcases p.save_cases disk path with ⟨hunusable, -⟩ | ⟨-, -, _, hsave⟩ | ⟨-, hknown, -⟩
    · exact absurd husable hunusable
    · rw [hsave]
    · exact absurd hknown hunknown

end Save

end Preferences

end Milling
