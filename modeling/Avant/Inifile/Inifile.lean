import Avant.Lib.BigEndian
import Avant.Lib.Find
import Avant.Lib.Lines
import Avant.Lib.SortedMap

/-!
# INI files

Model of `external/avant-inifile/inifile.cpp`: `trim`, the loop of `load` over the lines of a file,
and `operator<<`, which `save` writes the file with. A file is its bytes; a `value` is the text it
holds.

`Writable` says what `load` gives: names without a closing bracket, keys without an equals sign that
do not start like a section or a comment, no line breaks, and nothing to trim (`writable_load`).
Such a file is read back as it was written (`load_save`).

* `load_save_load`: loading, saving and loading again gives what the first load gave.

Left out: the warnings, opening and flushing the files, which the model takes to succeed, and the
stand-ins for sections and values that do not exist.
-/

namespace Avant.Inifile

open Avant.Lib

/-- The blanks that are trimmed. -/
def isBlank (c : UInt8) : Bool := c = 0x20 || c = 0x09 || c = 0x0D || c = 0x0A

/-- `inifile::trim` -/
def trim (s : Bytes) : Bytes := Lib.trim isBlank s

/-- The keys and values of a section. -/
abbrev Section : Type := OrderedMap Bytes Bytes

/-- `m_inifile` -/
abbrev Sections : Type := OrderedMap Bytes Section

/-- `m_inifile[name];` -/
def touch (ini : Sections) (name : Bytes) : Sections :=
  match ini.lookup name with
  | none => ini.assign name .empty
  | some _ => ini

/-- The section that keys go to, and what was loaded so far. -/
structure Loader where
  name : Bytes := []
  inifile : Sections := .empty

/-- A section tag. -/
def loadSection (st : Loader) (line : Bytes) : Loader :=
  match find [0x5D] line with
  | none => st
  | some pos =>
    let sectionName := trim ((line.drop 1).take (pos - 1))
    if sectionName = [] then st else ⟨sectionName, touch st.inifile sectionName⟩

/-- A line `key=value`. -/
def loadEntry (st : Loader) (line : Bytes) : Loader :=
  match find [0x3D] line with
  | none => st
  | some pos =>
    if pos = 0 then st
    else
      let key := trim (line.take pos)
      if key = [] then st
      else
        let value := trim (line.drop (pos + 1))
        match st.inifile.lookup st.name with
        | none => st
        | some sec => { st with inifile := st.inifile.assign st.name (sec.assign key value) }

/-- A line behind `line = trim(line)`. -/
def loadTrimmed (st : Loader) (line : Bytes) : Loader :=
  if line = [] then st
  else if line.head? = some 0x5B then loadSection st line
  else if line.head? = some 0x23 then st
  else loadEntry st line

/-- One turn of the loop of `load`. -/
def loadLine (st : Loader) (line : Bytes) : Loader := loadTrimmed st (trim line)

/-- `inifile::load`, of a file that can be read -/
def load (content : Bytes) : Sections := ((lines 0x0A content).foldl loadLine {}).inifile

/-- `key = value` -/
def entryLine (e : Bytes × Bytes) : Bytes := e.1 ++ ascii " = " ++ e.2

/-- `[section]` -/
def sectionLine (name : Bytes) : Bytes := ascii "[" ++ name ++ ascii "]"

/-- `inifile::operator<<`, for one section -/
def sectionText (s : Bytes × Section) : Bytes :=
  sectionLine s.1 ++ [0x0A] ++ s.2.entries.flatMap (fun e => entryLine e ++ [0x0A]) ++ [0x0A]

/-- `inifile::operator<<`, which is what `save` writes -/
def save (ini : Sections) : Bytes := ini.entries.flatMap sectionText

/-! ## What is loaded -/

/-- A name, key or value is trimmed and stands on one line. -/
structure OneLine (s : Bytes) : Prop where
  trimmed : Trimmed isBlank s
  line : 0x0A ∉ s

structure IsSectionName (name : Bytes) : Prop extends OneLine name where
  ne_nil : name ≠ []
  bracket : 0x5D ∉ name

structure IsKey (key : Bytes) : Prop extends OneLine key where
  ne_nil : key ≠ []
  equals : 0x3D ∉ key
  section_ : key.head? ≠ some 0x5B
  comment : key.head? ≠ some 0x23

def WritableSection (sec : Section) : Prop := ∀ e ∈ sec.entries, IsKey e.1 ∧ OneLine e.2

/-- What can be written and read back. -/
def Writable (ini : Sections) : Prop :=
  ∀ s ∈ ini.entries, IsSectionName s.1 ∧ WritableSection s.2

theorem OneLine.of_trim {s : Bytes} (h : 0x0A ∉ s) : OneLine (trim s) :=
  ⟨trimmed_trim isBlank s, fun hmem => h (mem_of_mem_trim hmem)⟩

theorem not_mem_take_of_find {c : UInt8} {s : Bytes} {pos : Nat} (h : find [c] s = some pos) :
    c ∉ s.take pos := by
  rw [(take_of_find h).1]
  intro hmem
  simpa using List.mem_takeWhile_imp hmem

/-- What a line can do: nothing, begin a section, or set a key of the current one. -/
inductive Loaded (st : Loader) : Loader → Prop
  | same : Loaded st st
  | tag {name : Bytes} (hname : IsSectionName name) : Loaded st ⟨name, touch st.inifile name⟩
  | entry {key value : Bytes} {sec : Section} (hkey : IsKey key) (hvalue : OneLine value)
      (hsec : st.inifile.lookup st.name = some sec) :
      Loaded st { st with inifile := st.inifile.assign st.name (sec.assign key value) }

variable {st : Loader} {line : Bytes}

theorem loaded_loadSection (h : OneLine line) : Loaded st (loadSection st line) := by
  unfold loadSection
  split
  · exact .same
  · next pos hpos =>
    dsimp only
    split
    · exact .same
    · next hname =>
      refine .tag ⟨.of_trim ?_, hname, ?_⟩
      · exact fun hmem => h.line (List.mem_of_mem_drop (List.mem_of_mem_take hmem))
      · intro hmem
        have hmem := mem_of_mem_trim hmem
        rw [← List.drop_take] at hmem
        exact not_mem_take_of_find hpos (List.mem_of_mem_drop hmem)

theorem loaded_loadEntry (h : OneLine line) (hsection : line.head? ≠ some 0x5B)
    (hcomment : line.head? ≠ some 0x23) : Loaded st (loadEntry st line) := by
  unfold loadEntry
  split
  · exact .same
  · next pos hpos =>
    split
    · exact .same
    · next hpos0 =>
      dsimp only
      split
      · exact .same
      · next hkey =>
        split
        · exact .same
        · next sec hsec =>
          -- the key starts where the line does
          have htake : (line.take pos).head? = line.head? := by
            rw [List.head?_take, if_neg hpos0]
          have hhead : (trim (line.take pos)).head? = line.head? :=
            (head?_trim fun c hc => h.trimmed.head c (htake ▸ hc)).trans htake
          refine .entry ⟨.of_trim ?_, hkey, ?_, ?_, ?_⟩ (.of_trim ?_) hsec
          · exact fun hmem => h.line (List.mem_of_mem_take hmem)
          · exact fun hmem => not_mem_take_of_find hpos (mem_of_mem_trim hmem)
          · rwa [hhead]
          · rwa [hhead]
          · exact fun hmem => h.line (List.mem_of_mem_drop hmem)

theorem loaded_loadLine (h : 0x0A ∉ line) : Loaded st (loadLine st line) := by
  have hone := OneLine.of_trim h
  unfold loadLine loadTrimmed
  split
  · exact .same
  · split
    · exact loaded_loadSection hone
    · next hsection =>
      split
      · exact .same
      · next hcomment => exact loaded_loadEntry hone hsection hcomment

theorem Writable.assign {ini : Sections} (h : Writable ini) {name : Bytes} {sec : Section}
    (hname : IsSectionName name) (hsec : WritableSection sec) : Writable (ini.assign name sec) :=
  forall_mem_assign h hname hsec

theorem Loaded.writable {st' : Loader} (h : Loaded st st') (hw : Writable st.inifile) :
    Writable st'.inifile := by
  cases h with
  | same => exact hw
  | @tag name hname =>
    change Writable (touch st.inifile name)
    unfold touch
    split
    · exact hw.assign hname nofun
    · exact hw
  | entry hkey hvalue hsec =>
    obtain ⟨hname, hold⟩ := hw _ (OrderedMap.mem_of_lookup hsec)
    exact hw.assign hname (forall_mem_assign hold hkey hvalue)

/-- **What is loaded can be written.** -/
theorem writable_load (content : Bytes) : Writable (load content) := by
  have hloop : ∀ (ls : List Bytes) (st : Loader), (∀ l ∈ ls, 0x0A ∉ l) → Writable st.inifile →
      Writable (ls.foldl loadLine st).inifile := by
    intro ls
    induction ls with
    | nil => exact fun st _ h => h
    | cons l ls ih =>
      intro st hls h
      obtain ⟨hl, hls⟩ := List.forall_mem_cons.mp hls
      exact ih (loadLine st l) hls ((loaded_loadLine hl).writable h)
  exact hloop _ {} (fun l hl => not_mem_of_mem_lines hl) nofun

/-! ## What is written -/

theorem loadLine_nil (st : Loader) : loadLine st [] = st := rfl

/-- The tag of a section. -/
theorem loadLine_sectionLine (st : Loader) {name : Bytes} (h : IsSectionName name) :
    loadLine st (sectionLine name) = ⟨name, touch st.inifile name⟩ := by
  have htrim : trim (sectionLine name) = 0x5B :: (name ++ [0x5D]) := by
    refine (Trimmed.of_ends (a := 0x5B :: name) (b := [0x5D]) (by simp) (by simp) ?_ ?_).trim_eq
    · intro c hc
      cases hc
      rfl
    · intro c hc
      cases hc
      rfl
  have hfind : find [0x5D] (0x5B :: (name ++ [0x5D])) = some (name.length + 1) := by
    have hnot : (0x5D : UInt8) ∉ 0x5B :: name := by simpa using h.bracket
    exact find_singleton_append hnot
  have hname : trim name = name := h.trimmed.trim_eq
  rw [loadLine, htrim, loadTrimmed, if_neg (by simp), if_pos (by simp), loadSection, hfind]
  simp [hname, h.ne_nil]

/-- What is left of the line of an entry: the blank behind the equals sign is gone if there is no
value. -/
theorem trim_entryLine {e : Bytes × Bytes} (hkey : IsKey e.1) (hvalue : OneLine e.2) :
    ∃ tail, trim (entryLine e) = e.1 ++ 0x20 :: 0x3D :: tail ∧ trim tail = e.2 := by
  have hblank : ∀ c ∈ ([0x20] : Bytes), isBlank c = true := List.all_eq_true.mp rfl
  by_cases hnil : e.2 = []
  · refine ⟨[], ?_, by rw [hnil]; rfl⟩
    have hends : Trimmed isBlank (e.1 ++ [0x20, 0x3D]) := by
      refine .of_ends hkey.ne_nil (by simp) hkey.trimmed.head fun c hc => ?_
      cases hc
      rfl
    have hline : entryLine e = e.1 ++ [0x20, 0x3D] ++ [0x20] := by
      rw [entryLine, hnil, List.append_nil, List.append_assoc]
      rfl
    rw [hline]
    exact hends.trim_append hblank
  · have hends : Trimmed isBlank (e.1 ++ ascii " = " ++ e.2) :=
      .of_ends (by simp [hkey.ne_nil]) hnil
        (fun c hc => hkey.trimmed.head c (by rwa [List.head?_append_of_ne_nil _ hkey.ne_nil] at hc))
        hvalue.trimmed.last
    refine ⟨0x20 :: e.2, hends.trim_eq.trans ?_, ?_⟩
    · simp only [List.append_assoc]
      rfl
    · exact (trim_append_left (s := e.2) hblank).trans hvalue.trimmed.trim_eq

/-- The line of an entry. -/
theorem loadLine_entryLine {e : Bytes × Bytes} {sec : Section} (hkey : IsKey e.1)
    (hvalue : OneLine e.2) (hsec : st.inifile.lookup st.name = some sec) :
    loadLine st (entryLine e) =
      { st with inifile := st.inifile.assign st.name (sec.assign e.1 e.2) } := by
  obtain ⟨tail, hline, htail⟩ := trim_entryLine hkey hvalue
  have hblank : ∀ c ∈ ([0x20] : Bytes), isBlank c = true := List.all_eq_true.mp rfl
  have hhead : (e.1 ++ 0x20 :: 0x3D :: tail).head? = e.1.head? :=
    List.head?_append_of_ne_nil _ hkey.ne_nil
  have hsplit : e.1 ++ 0x20 :: 0x3D :: tail = (e.1 ++ [0x20]) ++ 0x3D :: tail := by simp
  have hfind : find [0x3D] (e.1 ++ 0x20 :: 0x3D :: tail) = some (e.1.length + 1) := by
    have hnot : (0x3D : UInt8) ∉ e.1 ++ [0x20] := by simp [hkey.equals]
    rw [hsplit, find_singleton_append hnot, List.length_append, List.length_singleton]
  have htake : trim ((e.1 ++ 0x20 :: 0x3D :: tail).take (e.1.length + 1)) = e.1 := by
    rw [hsplit, List.take_left' (by simp)]
    exact hkey.trimmed.trim_append hblank
  have hdrop : trim ((e.1 ++ 0x20 :: 0x3D :: tail).drop (e.1.length + 1 + 1)) = e.2 := by
    rw [hsplit, ← List.drop_drop, List.drop_left' (by simp)]
    exact htail
  rw [loadLine, hline, loadTrimmed, if_neg (by simp), if_neg (by rw [hhead]; exact hkey.section_),
    if_neg (by rw [hhead]; exact hkey.comment), loadEntry, hfind]
  simp only [htake, hdrop, hkey.ne_nil, hsec, Nat.add_one_ne_zero, if_false]

/-- The entries of the last section, behind those that it has. -/
theorem foldl_entries (st : Loader) {acc : List (Bytes × Section)} (sec : Section)
    (hacc : ∀ s ∈ acc, s.1 < st.name) (hst : st.inifile.entries = acc ++ [(st.name, sec)])
    {es : List (Bytes × Bytes)}
    (hsorted : Sorted (sec.entries ++ es)) (hes : ∀ e ∈ es, IsKey e.1 ∧ OneLine e.2) :
    ((es.map entryLine).foldl loadLine st).name = st.name ∧
      ∃ sec' : Section, sec'.entries = sec.entries ++ es ∧
        ((es.map entryLine).foldl loadLine st).inifile.entries = acc ++ [(st.name, sec')] := by
  induction es generalizing st sec with
  | nil => exact ⟨rfl, sec, by simp, hst⟩
  | cons e es ih =>
    obtain ⟨⟨hkey, hvalue⟩, hes⟩ := List.forall_mem_cons.mp hes
    have hlast : ∀ a ∈ sec.entries, a.1 < e.1 := fun a ha =>
      (List.pairwise_append.mp hsorted).2.2 a ha e (.head es)
    have hassign : (sec.assign e.1 e.2).entries = sec.entries ++ [e] := assign_append hlast
    have hloop := ih { st with inifile := st.inifile.assign st.name (sec.assign e.1 e.2) }
      (sec.assign e.1 e.2) hacc ?_ ?_ hes
    · rw [List.map_cons, List.foldl_cons,
        loadLine_entryLine hkey hvalue (OrderedMap.lookup_last hst hacc)]
      rw [hassign, List.append_assoc, List.singleton_append] at hloop
      exact hloop
    · change Lib.assign st.name _ st.inifile.entries = _
      rw [hst]
      exact assign_last hacc
    · rwa [hassign, List.append_assoc, List.singleton_append]

/-- The lines of a file. -/
def fileLines (ss : List (Bytes × Section)) : List Bytes :=
  ss.flatMap fun s => sectionLine s.1 :: s.2.entries.map entryLine ++ [[]]

/-- The sections behind those that were loaded. -/
theorem foldl_sections (st : Loader) {ss : List (Bytes × Section)}
    (hsorted : Sorted (st.inifile.entries ++ ss))
    (hss : ∀ s ∈ ss, IsSectionName s.1 ∧ WritableSection s.2) :
    ((fileLines ss).foldl loadLine st).inifile.entries = st.inifile.entries ++ ss := by
  induction ss generalizing st with
  | nil => simp [fileLines]
  | cons s ss ih =>
    obtain ⟨⟨hname, hsec⟩, hss⟩ := List.forall_mem_cons.mp hss
    have hlast : ∀ a ∈ st.inifile.entries, a.1 < s.1 := fun a ha =>
      (List.pairwise_append.mp hsorted).2.2 a ha s (.head ss)
    have htag : (touch st.inifile s.1).entries = st.inifile.entries ++ [(s.1, .empty)] := by
      rw [touch, OrderedMap.lookup_eq_none hlast]
      exact assign_append hlast
    obtain ⟨-, sec, hentries, hdone⟩ := foldl_entries ⟨s.1, touch st.inifile s.1⟩ .empty hlast
      htag s.2.sorted hsec
    obtain rfl : sec = s.2 := OrderedMap.ext hentries
    rw [fileLines, List.flatMap_cons, List.cons_append, List.cons_append, List.foldl_cons,
      loadLine_sectionLine st hname, List.foldl_append, List.foldl_append, List.foldl_cons,
      List.foldl_nil, loadLine_nil]
    have hrest := ih ((s.2.entries.map entryLine).foldl loadLine ⟨s.1, touch st.inifile s.1⟩)
      (by rw [hdone]; simpa using hsorted) hss
    rw [hdone, List.append_assoc, List.singleton_append] at hrest
    exact hrest

theorem lines_save {ini : Sections} (h : Writable ini) :
    lines 0x0A (save ini) = fileLines ini.entries := by
  have htext : save ini = (fileLines ini.entries).flatMap (· ++ [0x0A]) ++ [] := by
    simp only [save, fileLines, List.flatMap_assoc, List.append_nil]
    refine List.flatMap_congr fun s _ => ?_
    simp [sectionText, List.flatMap_map]
  rw [htext, lines_flatMap, lines, List.append_nil]
  intro l hl
  obtain ⟨s, hs, hl⟩ := List.mem_flatMap.mp hl
  obtain ⟨hname, hsec⟩ := h s hs
  simp only [List.mem_cons, List.mem_append, List.mem_map, List.not_mem_nil, or_false,
    List.cons_append] at hl
  rcases hl with rfl | ⟨e, he, rfl⟩ | rfl
  · simp only [sectionLine, List.mem_append, not_or]
    exact ⟨⟨by decide, hname.line⟩, by decide⟩
  · obtain ⟨hkey, hvalue⟩ := hsec e he
    simp only [entryLine, List.mem_append, not_or]
    exact ⟨⟨hkey.line, by decide⟩, hvalue.line⟩
  · exact List.not_mem_nil

/-- **What can be written is read back.** -/
theorem load_save {ini : Sections} (h : Writable ini) : load (save ini) = ini := by
  refine OrderedMap.ext ?_
  rw [load, lines_save h]
  exact foldl_sections {} ini.sorted h

/-- **Loading, saving and loading again** gives the same sections, keys and values. -/
theorem load_save_load (content : Bytes) : load (save (load content)) = load content :=
  load_save (writable_load content)

end Avant.Inifile
