import Avant.Utility.Url

/-!
# The path of a static file

Model of the part of `http_app::process_connection` (`src/app/http_app.cpp`) that turns the URL of
a request into the path of a file: the URL is percent-decoded, refused when it contains `..`,
parsed, and the path of the parsed URL is appended to the static directory. `url::get_path`
decodes **once more**, behind the check.

The path goes wrong exactly where the text that is decoded the second time spells a `..` segment
with escapes. `spellings` cuts that text into characters as it writes them, a byte or `%XX`, and
`SpelledParent` asks for two dots alone between slashes, in any spelling. The directory is part
of the text, since a relative path can complete its last segment.

Results:
* `parent_mem_segments_iff`: decoding a text gives a `..` segment iff the text spells one;
* **`staticPath_contained_iff`**: so the path built for a request has none iff the path text of
  the URL, decoded once, does not spell one.
-/

namespace Avant.App

open Avant.Lib Avant.Utility

/-- What the handler makes of a URL. -/
inductive PathResult
  /-- `return_500` -/
  | internalError
  /-- `return_404` -/
  | notFound
  /-- the file `t_path` is looked up -/
  | path (t : Bytes)
  deriving DecidableEq

/-- The path part of `http_app::process_connection`, for a static directory `dir`. -/
def staticPath (dir url : Bytes) : PathResult :=
  match unescapePath url with
  | (_, false) => .internalError
  | (url, true) =>
    if find (ascii "..") url ≠ none then .notFound
    else
      match fromString url with
      | .error _ => .internalError
      | .ok urlObj =>
        let url := urlObj.getPath
        .path (dir ++ if url = ascii "" ∨ url = ascii "/" then ascii "/index.html" else url)

/-- The segments of a path. -/
def segments (t : Bytes) : List Bytes := t.splitOnP (· = 47)

/-- If a path is built, it has no `..` segment. -/
def Contained (dir url : Bytes) : Prop :=
  ∀ t, staticPath dir url = .path t → ascii ".." ∉ segments t

/-! ## Spellings -/

/-- The characters of a text as it spells them, up to the first malformed escape. -/
def spellings : Bytes → List Bytes
  | [] => []
  | c :: rest =>
    if c = 37 then
      match rest with
      | h :: l :: rest' =>
        if (hexNibble h).isSome ∧ (hexNibble l).isSome then [37, h, l] :: spellings rest' else []
      | _ => []
    else [c] :: spellings rest

/-- The ways to spell a dot. -/
def dots : List Bytes := [ascii ".", ascii "%2e", ascii "%2E"]

/-- The ways to spell a slash. -/
def slashes : List Bytes := [ascii "/", ascii "%2f", ascii "%2F"]

/-- Behind the directory, which stands for itself, the text `p` spells a path in which two dots
are alone between slashes or ends. -/
def SpelledParent (dir p : Bytes) : Prop :=
  ∃ seg ∈ (dir.map ([·]) ++ spellings p).splitOnP (· ∈ slashes),
    ∃ d₁ ∈ dots, ∃ d₂ ∈ dots, seg = [d₁, d₂]

/-- The byte a spelling stands for. -/
def spelled : Bytes → UInt8
  | [c] => c
  | s => (unescapePath s).1.headD 0

/-- One character as a text spells it. -/
inductive Spelling : Bytes → Prop
  | byte (c : UInt8) : Spelling [c]
  | escape {h l : UInt8} {hi lo : Nat} : hexNibble h = some hi → hexNibble l = some lo →
    Spelling [37, h, l]

theorem spelling_of_mem : ∀ {p s : Bytes}, s ∈ spellings p → Spelling s
  | [], s, hs => by simp [spellings] at hs
  | c :: rest, s, hs => by
    unfold spellings at hs
    split at hs
    · match rest, hs with
      | h :: l :: rest', hs =>
        simp only at hs
        split at hs
        · rename_i hhex
          obtain rfl | hs := List.mem_cons.mp hs
          · obtain ⟨hi, hhi⟩ := Option.isSome_iff_exists.mp hhex.1
            obtain ⟨lo, hlo⟩ := Option.isSome_iff_exists.mp hhex.2
            exact .escape hhi hlo
          · exact spelling_of_mem hs
        · simp at hs
    · obtain rfl | hs := List.mem_cons.mp hs
      · exact .byte c
      · exact spelling_of_mem hs

/-- **Decoding is reading the spellings**, as far as they are well formed. -/
theorem unescapePath_spellings : ∀ p : Bytes, (unescapePath p).1 = (spellings p).map spelled
  | [] => rfl
  | c :: rest => by
    unfold unescapePath spellings
    split
    · match rest with
      | [] | [_] => rfl
      | h :: l :: rest' =>
        cases hh : hexNibble h with
        | none => simp [hh]
        | some hi =>
          cases hl : hexNibble l with
          | none => simp [hh, hl]
          | some lo => simp [spelled, unescapePath, hh, hl, unescapePath_spellings rest']
    · simp [spelled, unescapePath_spellings rest]

theorem hexNibble_eq_some {c : UInt8} {n : Nat} : hexNibble c = some n ↔
    (48 ≤ c.toNat ∧ c.toNat ≤ 57 ∧ c.toNat = n + 48) ∨
    (97 ≤ c.toNat ∧ c.toNat ≤ 102 ∧ c.toNat + 10 = n + 97) ∨
    (65 ≤ c.toNat ∧ c.toNat ≤ 70 ∧ c.toNat + 10 = n + 65) := by
  unfold hexNibble
  simp only [UInt8.le_iff_toNat_le, UInt8.reduceToNat]
  split_ifs <;> simp only [Option.some.injEq, false_iff] <;> omega

/-- The escape of `b` has the digits of `b`. -/
theorem spelled_escape {h l b : UInt8} {hi lo : Nat} (hh : hexNibble h = some hi)
    (hl : hexNibble l = some lo) :
    spelled [37, h, l] = b ↔ hi = b.toNat / 16 ∧ lo = b.toNat % 16 := by
  have hhi : hi < 16 := by have := hexNibble_eq_some.mp hh; omega
  have hlo : lo < 2 ^ 4 := by have := hexNibble_eq_some.mp hl; omega
  have hval : spelled [37, h, l] = UInt8.ofNat (hi <<< 4 ||| lo) := by
    simp [spelled, unescapePath, hh, hl]
  have hb := b.toNat_lt
  rw [hval, ← Nat.shiftLeft_add_eq_or_of_lt hlo, Nat.shiftLeft_eq, ← UInt8.toNat_inj,
    UInt8.toNat_ofNat']
  omega

/-- A byte `0x2n` whose last digit is a letter has three spellings. -/
theorem spelled_eq_iff {s : Bytes} (hs : Spelling s) {n : Nat} (h10 : 10 ≤ n) (h16 : n < 16) :
    spelled s = UInt8.ofNat (32 + n) ↔ s = [UInt8.ofNat (32 + n)] ∨
      s = [37, 50, UInt8.ofNat (87 + n)] ∨ s = [37, 50, UInt8.ofNat (55 + n)] := by
  have hn : (UInt8.ofNat (32 + n)).toNat = 32 + n := by rw [UInt8.toNat_ofNat']; omega
  cases hs with
  | byte c => simp [spelled]
  | @escape h l hi lo hh hl =>
    have hlower : (UInt8.ofNat (87 + n)).toNat = 87 + n := by rw [UInt8.toNat_ofNat']; omega
    have hupper : (UInt8.ofNat (55 + n)).toNat = 55 + n := by rw [UInt8.toNat_ofNat']; omega
    have hh' := hexNibble_eq_some.mp hh
    have hl' := hexNibble_eq_some.mp hl
    rw [spelled_escape hh hl, hn]
    simp only [List.cons.injEq, reduceCtorEq, and_false, and_true, true_and, false_or,
      ← UInt8.toNat_inj, hlower, hupper, UInt8.reduceToNat]
    omega

/-- A character is a dot iff it is spelled as one. -/
theorem spelled_eq_dot {s : Bytes} (hs : Spelling s) : spelled s = 46 ↔ s ∈ dots := by
  have hdots : dots = [[46], [37, 50, 101], [37, 50, 69]] := by decide
  have := spelled_eq_iff hs (n := 14) (by omega) (by omega)
  simpa [hdots] using this

/-- A character is a slash iff it is spelled as one. -/
theorem spelled_eq_slash {s : Bytes} (hs : Spelling s) : spelled s = 47 ↔ s ∈ slashes := by
  have hslashes : slashes = [[47], [37, 50, 102], [37, 50, 70]] := by decide
  have := spelled_eq_iff hs (n := 15) (by omega) (by omega)
  simpa [hslashes] using this

/-! ## The path -/

theorem segments_append_slash (a b : Bytes) : segments (a ++ 47 :: b) = segments a ++ segments b :=
  List.splitOnP_append_cons a b (by simp)

/-- **The path has a `..` segment iff the text spells one.** -/
theorem parent_mem_segments_iff (dir p : Bytes) :
    ascii ".." ∈ segments (dir ++ (unescapePath p).1) ↔ SpelledParent dir p := by
  set pieces := dir.map ([·]) ++ spellings p with hpieces
  have hspelling : ∀ s ∈ pieces, Spelling s := by
    intro s hs
    rw [hpieces, List.mem_append, List.mem_map] at hs
    obtain ⟨c, -, rfl⟩ | hs := hs
    · exact .byte c
    · exact spelling_of_mem hs
  have hmap : dir ++ (unescapePath p).1 = pieces.map spelled := by
    rw [hpieces, List.map_append, List.map_map, unescapePath_spellings]
    simp [Function.comp_def, spelled]
  have hsplit : segments (dir ++ (unescapePath p).1) =
      (pieces.splitOnP (· ∈ slashes)).map (List.map spelled) := by
    rw [segments, hmap, splitOnP_map]
    congr 1
    refine splitOnP_congr fun s hs => ?_
    simp only [spelled_eq_slash (hspelling s hs)]
  have hparent : ascii ".." = [46, 46] := by decide
  rw [hsplit, List.mem_map, hparent]
  refine exists_congr fun seg => and_congr_right fun hseg => ?_
  have hdot : ∀ s ∈ seg, spelled s = 46 ↔ s ∈ dots := fun s hs =>
    spelled_eq_dot (hspelling s (mem_of_mem_splitOnP hseg s hs))
  constructor
  · intro heq
    match seg, heq, hdot with
    | [d₁, d₂], heq, hdot =>
      obtain ⟨h₁, h₂⟩ : spelled d₁ = 46 ∧ spelled d₂ = 46 := by simpa using heq
      exact ⟨d₁, (hdot d₁ (by simp)).mp h₁, d₂, (hdot d₂ (by simp)).mp h₂, rfl⟩
    | [], heq, _ | [_], heq, _ | _ :: _ :: _ :: _, heq, _ => simp at heq
  · rintro ⟨d₁, h₁, d₂, h₂, rfl⟩
    simp [(hdot d₁ (by simp)).mpr h₁, (hdot d₂ (by simp)).mpr h₂]

/-- The default document changes nothing: the path it stands for is empty or a slash. -/
theorem parent_mem_segments_index (dir : Bytes) {p : Bytes} (hp : p = ascii "" ∨ p = ascii "/") :
    ascii ".." ∈ segments (dir ++ ascii "/index.html") ↔ ascii ".." ∈ segments (dir ++ p) := by
  have hindex : segments (dir ++ ascii "/index.html") = segments dir ++ segments (ascii "index.html") :=
    segments_append_slash dir _
  have hlast : ascii ".." ∉ segments (ascii "index.html") := by decide
  rw [hindex, List.mem_append, or_iff_left hlast]
  obtain rfl | rfl := hp
  · rw [show ascii "" = [] from rfl, List.append_nil]
  · have hslash : segments (dir ++ ascii "/") = segments dir ++ segments [] :=
      segments_append_slash dir []
    have hnil : ascii ".." ∉ segments [] := by decide
    rw [hslash, List.mem_append, or_iff_left hnil]

/-- **Containment.** The path built from a URL has no `..` segment, unless the URL, decoded once,
passes the check and parses, and its path text spells such a segment with the escapes it still
has. -/
theorem staticPath_contained_iff (dir url : Bytes) :
    Contained dir url ↔
      ∀ u, unescapePath url = (u, true) → ¬ ascii ".." <:+: u →
        (∃ urlObj, fromString u = .ok urlObj) → ¬ SpelledParent dir (pathText u) := by
  unfold Contained staticPath
  obtain ⟨u, ok⟩ := unescapePath url
  cases ok with
  | false => simp
  | true =>
    simp only [Prod.mk.injEq, and_true, forall_eq']
    by_cases hdots : ascii ".." <:+: u
    · rw [if_pos (fun h => find_eq_none.mp h hdots)]
      simp [hdots]
    · rw [if_neg (not_not_intro (find_eq_none.mpr hdots))]
      cases hparse : fromString u with
      | error e => simp
      | ok urlObj =>
        have hpath : (unescapePath (pathText u)).1 = urlObj.getPath := by
          rw [Url.getPath, fromString_path hparse]
        simp only [PathResult.path.injEq, forall_eq', hdots, not_false_eq_true, true_implies,
          Except.ok.injEq, exists_eq', ← parent_mem_segments_iff, hpath]
        split
        · rename_i hindex
          rw [parent_mem_segments_index dir hindex]
        · rfl

/-- **Escaped twice, the check sees nothing**: `%252e` becomes `%2e` before it and a dot behind
it. -/
theorem staticPath_not_contained_twice_escaped :
    ¬ Contained (ascii "/srv/www") (ascii "/%252e%252e/etc/passwd") := by
  intro h
  exact h (ascii "/srv/www/../etc/passwd") (by decide +kernel) (by decide)

end Avant.App
