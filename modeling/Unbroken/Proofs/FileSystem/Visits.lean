import Mathlib.Data.List.Infix
import Mathlib.Data.List.Nodup
import Unbroken.Proofs.FileSystem.Sound

/-! Walks over a tree. A walk comes to every entry once, but for those that another entry on the way
holds back. -/

namespace Unbroken

/-- What a walk comes to: each entry once that no entry on the way, nor the entry itself, holds back. -/
structure Visits (enters : List String → Entry → Bool) (start : Entry)
    (visited : List (List String × Entry)) : Prop where
  every : ∀ names entry, (names, entry) ∈ visited ↔
    start.at? names = some entry ∧ ∀ way ∈ names.inits, (start.at? way).all (enters way)
  once : (visited.map Prod.fst).Nodup

def Directory.entries : Directory → List (List String × Entry)
  | .empty => []
  | .file name content others => ([name], .file content) :: others.entries
  | .link name target others => ([name], .link target) :: others.entries
  | .folder name inner others =>
    ([name], .folder inner) :: inner.entries.map (Prod.map (name :: ·) id) ++ others.entries

def Entry.entries : Entry → List (List String × Entry)
  | .folder inner => ([], .folder inner) :: inner.entries
  | entry => [([], entry)]

namespace Entry

variable {start entry : Entry} {names below : List String} {content : ByteArray}

theorem Sound.proper (sound : start.Sound) (found : start.at? names = some entry) :
    ∀ name ∈ names, ProperName name := by
  cases start with
  | folder entries => exact (Directory.Sound.at? sound found).1
  | file | link =>
      cases names with
      | nil => simp
      | cons name below => cases found

theorem exists_folder_of_at?_append (deeper : below ≠ []) (found : start.at? (names ++ below) = some entry) :
    ∃ entries, start.at? names = some (.folder entries) := by
  cases start with
  | folder entries => exact Directory.exists_folder_of_at?_append deeper found
  | file | link =>
      obtain ⟨name, rest, longer⟩ := List.exists_cons_of_ne_nil (List.append_ne_nil_of_right_ne_nil names deeper)
      rw [longer] at found
      cases found

theorem file_at?_eq_file_iff (known : ByteArray) :
    (Entry.file known).at? names = some (.file content) ↔ names = [] ∧ known = content := by
  cases names <;> simp [at?]

end Entry

namespace Directory

theorem entries_cons (name : String) (entry : Entry) (others : Directory) :
    (cons name entry others).entries =
      entry.entries.map (Prod.map (name :: ·) id) ++ others.entries := by
  cases entry <;> rfl

end Directory

def Directory.Complete (directory : Directory) : Prop :=
  ∀ names found, (names, found) ∈ directory.entries ↔ names ≠ [] ∧ directory.at? names = some found

namespace Entry

variable {start : Entry}

theorem mem_entries_iff_of_complete (lower : ∀ inner, start = .folder inner → inner.Complete)
    (names : List String) (found : Entry) :
    (names, found) ∈ start.entries ↔ start.at? names = some found := by
  cases start with
  | file | link => cases names <;> simp [entries, at?, eq_comm]
  | folder inner =>
      rw [entries, List.mem_cons, lower inner rfl, at?]
      cases names with
      | nil => simp [Directory.at?, eq_comm]
      | cons => simp

theorem nodup_entries_of_complete (lower : ∀ inner, start = .folder inner →
    inner.Complete ∧ (inner.entries.map Prod.fst).Nodup) : (start.entries.map Prod.fst).Nodup := by
  cases start with
  | file | link => exact List.nodup_singleton _
  | folder inner =>
      obtain ⟨complete, once⟩ := lower inner rfl
      refine List.nodup_cons.mpr ⟨?_, once⟩
      intro member
      obtain ⟨⟨_, found⟩, here, rfl⟩ := List.mem_map.mp member
      exact ((complete _ _).mp here).1 rfl

end Entry

namespace Directory

variable {directory others : Directory} {name : String}

theorem complete_cons (entry : Entry) (fresh : others.find? name = none)
    (lower : ∀ inner, entry = .folder inner → inner.Complete) (rest : others.Complete) :
    (cons name entry others).Complete := by
  intro names found
  rw [entries_cons, List.mem_append, rest]
  cases names with
  | nil => simp
  | cons first below =>
      rw [at?_cons_cons_iff entry fresh, ← Entry.mem_entries_iff_of_complete lower]
      simp [and_comm]

theorem Sound.complete (sound : directory.Sound) : directory.Complete := by
  induction directory with
  | empty =>
      intro names found
      cases names with
      | nil => simp [entries]
      | cons name below =>
          rw [at?_cons_of_none rfl]
          simp [entries]
  | file name content others ih => exact complete_cons (.file content) sound.2.1 (by simp) (ih sound.2.2)
  | link name target others ih => exact complete_cons (.link target) sound.2.1 (by simp) (ih sound.2.2)
  | folder name inner others lower ih =>
      obtain ⟨-, fresh, within, rest⟩ := sound
      exact complete_cons (.folder inner) fresh (by rintro _ ⟨⟩; exact lower within) (ih rest)

theorem nodup_entries_cons (entry : Entry) (fresh : others.find? name = none) (rest : others.Complete)
    (inside : (entry.entries.map Prod.fst).Nodup) (once : (others.entries.map Prod.fst).Nodup) :
    ((cons name entry others).entries.map Prod.fst).Nodup := by
  have below : (entry.entries.map (Prod.map (name :: ·) id)).map Prod.fst =
      (entry.entries.map Prod.fst).map (name :: ·) := by
    rw [List.map_map, List.map_map]
    rfl
  rw [entries_cons, List.map_append, below]
  refine (inside.map List.cons_injective).append once ?_
  intro names here there
  obtain ⟨_, -, rfl⟩ := List.mem_map.mp here
  obtain ⟨⟨_, found⟩, member, rfl⟩ := List.mem_map.mp there
  have other := ((rest _ _).mp member).2
  rw [at?_cons_of_none fresh] at other
  cases other

theorem Sound.nodup_entries (sound : directory.Sound) : (directory.entries.map Prod.fst).Nodup := by
  induction directory with
  | empty => exact List.nodup_nil
  | file name content others ih =>
      exact nodup_entries_cons (.file content) sound.2.1 sound.2.2.complete (List.nodup_singleton _)
        (ih sound.2.2)
  | link name target others ih =>
      exact nodup_entries_cons (.link target) sound.2.1 sound.2.2.complete (List.nodup_singleton _)
        (ih sound.2.2)
  | folder name inner others lower ih =>
      obtain ⟨-, fresh, within, rest⟩ := sound
      refine nodup_entries_cons (.folder inner) fresh rest.complete ?_ (ih rest)
      refine Entry.nodup_entries_of_complete ?_
      rintro _ ⟨⟩
      exact ⟨within.complete, lower within⟩

end Directory

theorem Entry.Sound.mem_entries_iff {start : Entry} (sound : start.Sound) (names : List String)
    (found : Entry) : (names, found) ∈ start.entries ↔ start.at? names = some found := by
  apply mem_entries_iff_of_complete
  rintro inner rfl
  exact Directory.Sound.complete sound

theorem Entry.Sound.nodup_entries {start : Entry} (sound : start.Sound) :
    (start.entries.map Prod.fst).Nodup := by
  apply nodup_entries_of_complete
  rintro inner rfl
  exact ⟨Directory.Sound.complete sound, Directory.Sound.nodup_entries sound⟩

theorem exists_visits {start : Entry} (sound : start.Sound) (enters : List String → Entry → Bool) :
    ∃ visited, Visits enters start visited := by
  refine ⟨start.entries.filter fun (names, _) => names.inits.all fun way => (start.at? way).all (enters way),
    ?_, ?_⟩
  · intro names entry
    rw [List.mem_filter, sound.mem_entries_iff, List.all_eq_true]
  · exact sound.nodup_entries.sublist (List.filter_sublist.map Prod.fst)

end Unbroken
