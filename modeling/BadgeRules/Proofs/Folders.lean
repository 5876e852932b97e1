import Mathlib
import BadgeRules.Proofs.Connections
import BadgeRules.Storage.Folder

/-!
# What is saved in a folder is loaded from it

A path leads on through directories, so it never passes the place it leads to unless that is a directory
itself. A file that is written there is no obstacle to the path (`Folder.walk_put`), and the text is read
back as it was written (`Folder.read_write`). So what loading gives after saving is what the saved text
is read as (`Folder.run_load_saved`).
-/

namespace BadgeRules.Folder

variable {f f' : Folder} {path : String} {place : List String}

/-! ### Files -/

/-- Where there is no directory, whatever is put there stands there. -/
theorem entry_put_self (h : f.entry? place ≠ some .directory) (e : Entry) :
    entry? (f.put place e) place = some e := by
  have hhome : ¬ place.isPrefixOf f.home = true := fun hp => h (if_pos hp)
  unfold entry? put
  rw [if_neg hhome, List.lookup_cons_self]

theorem entry_put_of_ne {place' : List String} (h : place' ≠ place) (e : Entry) :
    entry? (f.put place e) place' = f.entry? place' := by
  have hne : (place' == place) = false := beq_eq_false_iff_ne.2 h
  unfold entry? put
  rw [List.lookup_cons, hne]

theorem directory_of_walk_cons {start : List String} {name : String} {names : List String}
    (h : f.walk start (name :: names) = .ok place) : f.entry? start = some .directory := by
  rw [walk] at h
  cases hs : f.entry? start with
  | none => rw [hs] at h; cases h
  | some s =>
    cases s with
    | file bytes => rw [hs] at h; cases h
    | directory => rfl

theorem walk_cons {start : List String} (h : f.entry? start = some .directory) (name : String)
    (names : List String) : f.walk start (name :: names) =
      f.walk (if name = "" ∨ name = "." then start else if name = ".." then start.dropLast else start ++ [name])
        names := by
  rw [walk, h]
  dsimp only
  split
  · rfl
  · split <;> rfl

/-- A file at the end of a way is no obstacle to it. -/
theorem walk_put {start names : List String} (hw : f.walk start names = .ok place)
    (h : f.entry? place ≠ some .directory) (e : Entry) : (f.put place e).walk start names = .ok place := by
  induction names generalizing start with
  | nil => rw [walk] at hw ⊢; exact hw
  | cons name names ih =>
    have hs := directory_of_walk_cons hw
    have hne : start ≠ place := by rintro rfl; exact h hs
    rw [walk_cons hs] at hw
    rw [walk_cons ((entry_put_of_ne hne e).trans hs)]
    exact ih hw

/-- A file is written where the path leads, and not over a directory. -/
theorem write_eq_ok_iff {text : String} : f.write path text = .ok f' ↔
    ∃ place, f.locateNew path = .ok place ∧ f.entry? place ≠ some .directory ∧
      f' = f.put place (.file text.toUTF8) := by
  rw [write, bind_eq_ok_iff]
  refine exists_congr fun place => and_congr_right fun _ => ?_
  split
  · rename_i hd
    exact ⟨fun h => (nomatch h), fun h => absurd hd h.1⟩
  · rename_i hd
    exact ⟨fun h => ⟨hd, (Except.ok.inj h).symm⟩, fun h => congrArg Except.ok h.2.symm⟩

theorem locate_of_locateNew (h : f.locateNew path = .ok place) : f.locate path = .ok place := by
  rw [locateNew] at h
  split at h
  · obtain ⟨_, -, h⟩ := bind_eq_ok_iff.1 h
    cases h
  · exact h

theorem fromUTF8?_toUTF8 (text : String) : String.fromUTF8? text.toUTF8 = some text :=
  dif_pos text.isValidUTF8

theorem read_write {text : String} (h : f.write path text = .ok f') : f'.read path = .ok text := by
  obtain ⟨place, hplace, hd, rfl⟩ := write_eq_ok_iff.1 h
  have hlocate : (f.put place (.file text.toUTF8)).locate path = .ok place := by
    have hold := locate_of_locateNew hplace
    rw [locate] at hold ⊢
    split at hold
    · cases hold
    · rename_i hpath
      rw [if_neg hpath]
      exact walk_put hold hd _
  rw [read, hlocate]
  simp only [bind, Except.bind, entry_put_self hd, fromUTF8?_toUTF8]
  rfl

/-! ### Documents -/

theorem run_save (f : Folder) (path : String) (j : Json) :
    (storage.save path j).run f = match f.write path j.pretty with
      | .ok f' => (.ok (), f')
      | .error e => (.error (.file path e), f) := by
  simp only [Storage.save, storage, StateT.run, bind, StateT.bind, get, getThe, MonadStateOf.get, StateT.get, pure]
  cases f.write path j.pretty <;> rfl

/-- Nothing is in the way in a new folder. -/
theorem run_save_new (h : ({} : Folder).locateNew path = .ok place) (hne : place ≠ []) (j : Json) :
    (storage.save path j).run {} = (.ok (), .put {} place (.file j.pretty.toUTF8)) := by
  have hfree : entry? {} place = none := if_neg fun hp => hne (by simpa using hp)
  have hwrite : ({} : Folder).write path j.pretty = .ok (.put {} place (.file j.pretty.toUTF8)) :=
    write_eq_ok_iff.2 ⟨place, h, by simp [hfree], rfl⟩
  rw [run_save, hwrite]

theorem run_load {α : Type} (parse? : String → Option α) (f : Folder) (path : String) :
    (storage.load parse? path).run f = match f.read path with
      | .ok text => ((parse? text).elim (.error .malformed) .ok, f)
      | .error e => (.error (.file path e), f) := by
  simp only [Storage.load, storage, StateT.run, bind, StateT.bind, get, getThe, MonadStateOf.get, StateT.get, pure,
    StateT.pure]
  cases f.read path with
  | error e => rfl
  | ok text => cases h : parse? text <;> simp only [h] <;> rfl

theorem write_of_run_save {j : Json} (h : (storage.save path j).run f = (.ok (), f')) :
    f.write path j.pretty = .ok f' := by
  rw [run_save] at h
  cases hw : f.write path j.pretty with
  | error e => rw [hw] at h; cases h
  | ok f' => rw [hw] at h; cases h; rfl

theorem run_load_saved {α : Type} (parse? : String → Option α) {j : Json}
    (h : (storage.save path j).run f = (.ok (), f')) :
    (storage.load parse? path).run f' = ((parse? j.pretty).elim (.error .malformed) .ok, f') := by
  rw [run_load, read_write (write_of_run_save h)]

end BadgeRules.Folder
