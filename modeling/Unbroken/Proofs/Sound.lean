import Unbroken.Proofs.Kept
import Unbroken.Proofs.FileSystem.Sound

/-! Every tree of files that can come up is sound: the empty one is, and neither what is done to files by
hand nor a check on them, completed or halted, makes it otherwise. -/

namespace Unbroken

namespace FileSystem

variable {files after : FileSystem} {path : Path}

theorem mendFile_sound (sound : files.top.Sound) {breaks : List Break}
    (mended : files.mendFile path breaks = .ok (some after)) : after.top.Sound := by
  obtain ⟨template, -, -, saved⟩ := mendFile_eq_some_iff.mp mended
  exact write_sound sound (saveTemplate_eq_ok_iff.mp saved)

end FileSystem

namespace Check

theorem kept_sound (refuses : Refusals) : Kept (.silent refuses) fun files => files.top.Sound where
  heard _ _ sound := sound
  mended _ _ _ _ sound mended := FileSystem.mendFile_sound sound mended

theorem run_sound (refuses : Refusals) (source : Source) (options : Options) {files : FileSystem}
    (sound : files.top.Sound) :
    (filesLeft Prod.fst (run source (.silent refuses) options files)).top.Sound :=
  (kept_sound refuses).run source options sound

end Check

/-- The file systems that come up when files are made, changed and checked. -/
inductive FileSystem.Arises : FileSystem → Prop
  | empty (workingDirectory : List String) :
      Arises { top := .empty, workingDirectory := workingDirectory }
  | folders {files after path} : Arises files → files.makeFolders path = .ok after → Arises after
  | file {files after path content} : Arises files → files.placeFile path content = .ok after →
      Arises after
  | link {files after path target} : Arises files → files.placeLink path target = .ok after →
      Arises after
  | written {files after path text} : Arises files → files.write path text = .ok after → Arises after
  | removed {files after path} : Arises files → files.remove path = .ok after → Arises after
  | checked {files} (source refuses options) : Arises files →
      Arises (Check.filesLeft Prod.fst (Check.run source (.silent refuses) options files))

theorem FileSystem.Arises.sound {files : FileSystem} (arises : files.Arises) : files.top.Sound := by
  induction arises with
  | empty => trivial
  | folders _ made ih => exact makeFolders_sound ih made
  | file _ placed ih => exact placeFile_sound ih placed
  | link _ placed ih => exact placeLink_sound ih placed
  | written _ written ih => exact write_sound ih written
  | removed _ removed ih => exact remove_sound ih removed
  | checked source refuses options _ ih => exact Check.run_sound refuses source options ih

end Unbroken
