import Avant.Lib.CString
import Avant.Lib.Find

/-!
# URLs

Model of `src/utility/url.cpp`: `unescape_path`, `from_string` with its helpers, and `get_path`.
The parser keeps a target and a left position and only ever looks to the right of it; here the
state is that right part, so `moveBefore` drops from it and `captureUpTo` takes from it. The
order of the steps, and what each of them is applied to, are the source's.

`pathText` says in one line where the path of a URL stands in its text, and
`fromString_path` that this is what the parser stores.
-/

namespace Avant.Utility

open Avant.Lib

/-! ## Percent-decoding -/

/-- The lambda `hex_nibble`, `none` for `-1`. -/
def hexNibble (c : UInt8) : Option Nat :=
  if 48 ≤ c ∧ c ≤ 57 then some (c.toNat - 48)
  else if 97 ≤ c ∧ c ≤ 102 then some (c.toNat - 97 + 10)
  else if 65 ≤ c ∧ c ≤ 70 then some (c.toNat - 65 + 10)
  else none

/-- `url::unescape_path`: the decoded text and whether the whole input was decoded. On a malformed
escape the text before it has been written to `out`. -/
def unescapePath : Bytes → Bytes × Bool
  | [] => ([], true)
  | c :: rest =>
    if c = 37 then
      match rest with
      | h :: l :: rest' =>
        match hexNibble h, hexNibble l with
        | some hi, some lo =>
          let r := unescapePath rest'
          (UInt8.ofNat (hi <<< 4 ||| lo) :: r.1, r.2)
        | _, _ => ([], false)
      | _ => ([], false)
    else
      let r := unescapePath rest
      (c :: r.1, r.2)

/-! ## The parser -/

/-- The fields of `url` that `from_string` sets. -/
structure Url where
  scheme : Bytes := []
  authority : Bytes := []
  userInfo : Bytes := []
  username : Bytes := []
  password : Bytes := []
  host : Bytes := []
  port : Bytes := []
  path : Bytes := []
  query : Bytes := []
  queryParameters : List (Bytes × Bytes) := []
  fragment : Bytes := []
  ipv6Host : Bool := false
  secure : Bool := false
  deriving DecidableEq

/-- `capture_up_to` without an error message. -/
def captureUpTo (delimiter target : Bytes) : Bytes :=
  match find delimiter target with
  | none => target
  | some i => target.take i

/-- `capture_up_to` with an error message, and the target behind the delimiter. -/
def captureOrThrow (delimiter : Bytes) (message : String) (target : Bytes) :
    Except String (Bytes × Bytes) :=
  match find delimiter target with
  | none => .error message
  | some i => .ok (target.take i, target.drop (i + delimiter.length))

/-- `move_before`, which leaves the position where it is when the delimiter is absent. -/
def moveBefore (delimiter target : Bytes) : Bytes :=
  match find delimiter target with
  | none => target
  | some i => target.drop i

/-- `exists_forward`. -/
def existsForward (delimiter target : Bytes) : Bool := (find delimiter target).isSome

/-- The part of a URL behind the scheme, as `from_string` goes on with it: behind `//` or from
the start of a path, or the text of an opaque URI. -/
inductive Rest
  | hierarchical (target : Bytes)
  | opaqueUri (target : Bytes)
  deriving DecidableEq

/-- The scheme, and how to go on. A `//` anywhere behind the colon starts an authority. -/
def schemePart (s : Bytes) : Except String (Bytes × Rest) :=
  if s.head? = some 47 then .ok ([], .hierarchical s)
  else do
    let (scheme, target) ← captureOrThrow (ascii ":") "Expected : in url" s
    let scheme := scheme.map toLower
    if existsForward (ascii "//") target then
      .ok (scheme, .hierarchical ((moveBefore (ascii "//") target).drop 2))
    else .ok (scheme, .opaqueUri target)

/-- The query starts at the first question mark, unless that stands behind the fragment. -/
def hasQuery (target : Bytes) : Bool :=
  match find (ascii "?") target, find (ascii "#") target with
  | none, _ => false
  | some _, none => true
  | some q, some f => q < f

/-- Authority, path, query and fragment of a hierarchical target. -/
def hierPart (target : Bytes) : Bytes × Bytes × Bytes × Bytes :=
  let authorityEnd := target.findIdx? fun c => c = 47 ∨ c = 63 ∨ c = 35
  let authority := match authorityEnd with
    | none => target
    | some i => target.take i
  let pathExists := match authorityEnd with
    | none => false
    | some i => target[i]? = some 47
  let target := match authorityEnd with
    | some i => if pathExists then target.drop i else target
    | none => target
  let path (delimiter : Bytes) := if pathExists then captureUpTo delimiter target else []
  if hasQuery target then
    let behind := (moveBefore (ascii "?") target).drop 1
    if existsForward (ascii "#") behind then
      (authority, path (ascii "?"), captureUpTo (ascii "#") behind,
        captureUpTo (ascii "#") ((moveBefore (ascii "#") behind).drop 1))
    else (authority, path (ascii "?"), captureUpTo (ascii "#") behind, [])
  else if existsForward (ascii "#") target then
    (authority, path (ascii "#"), [],
      captureUpTo (ascii "#") ((moveBefore (ascii "#") target).drop 1))
  else (authority, path (ascii "#"), [], [])

/-- Authority, path, query and fragment; an opaque URI is all path. -/
def Rest.components : Rest → Bytes × Bytes × Bytes × Bytes
  | .hierarchical target => hierPart target
  | .opaqueUri target => ([], captureUpTo (ascii "#") target, [], [])

/-- User info, host, port and whether the host is in brackets. -/
def authorityPart (authority : Bytes) : Except String (Bytes × Bytes × Bytes × Bool) :=
  let userInfo := if existsForward (ascii "@") authority then captureUpTo (ascii "@") authority
    else []
  let target := if existsForward (ascii "@") authority then
    (moveBefore (ascii "@") authority).drop 1 else authority
  let port (target : Bytes) := if existsForward (ascii ":") target then
    captureUpTo (ascii "#") ((moveBefore (ascii ":") target).drop 1) else []
  if existsForward (ascii "[") target then do
    let (host, behind) ← captureOrThrow (ascii "]") "malformed ipv6"
      ((moveBefore (ascii "[") target).drop 1)
    .ok (userInfo, host, port behind, true)
  else .ok (userInfo, captureUpTo (ascii ":") target, port target, false)

/-- One `key=value` of the query: `+` becomes a blank and both are decoded, or kept as they are
when one of them does not decode. -/
def queryParameter (pair : Bytes) : Bytes × Bytes :=
  let key := match find (ascii "=") pair with
    | none => pair
    | some eq => pair.take eq
  let value := match find (ascii "=") pair with
    | none => []
    | some eq => pair.drop (eq + 1)
  let plus (s : Bytes) : Bytes := s.map fun c => if c = 43 then 32 else c
  match unescapePath (plus key), unescapePath (plus value) with
  | (k, true), (v, true) => (k, v)
  | _, _ => (plus key, plus value)

/-- `url::from_string`; the error is the message of the `runtime_error` it throws. -/
def fromString (s : Bytes) : Except String Url :=
  if s = [] then .ok {}
  else do
    let (scheme, rest) ← schemePart s
    let (authority, path, query, fragment) := rest.components
    let (userInfo, host, port, ipv6Host) ← authorityPart authority
    let username := captureUpTo (ascii ":") userInfo
    let password := if existsForward (ascii ":") userInfo then
      captureUpTo (ascii "#") ((moveBefore (ascii ":") userInfo).drop 1) else []
    let queryParameters := ((query.splitOn 38).filter (· ≠ [])).map queryParameter
    let secure := scheme = ascii "ssh" || scheme = ascii "https" || port = ascii "443" ||
      ((scheme = ascii "postgres" || scheme = ascii "postgresql") &&
        queryParameters.lookup (ascii "ssl") = some (ascii "true"))
    .ok
      { scheme := scheme
        authority := authority
        userInfo := userInfo
        username := username
        password := password
        host := host
        port := port
        path := path
        query := query
        queryParameters := queryParameters
        fragment := fragment
        ipv6Host := ipv6Host
        secure := secure }

/-! ## Where the path stands -/

/-- The path of a hierarchical target: behind the authority, if a slash ends that, up to the
query or the fragment. -/
def hierPathText (target : Bytes) : Bytes :=
  let t := target.dropWhile fun c => ¬ (c = 47 ∨ c = 63 ∨ c = 35)
  if t.head? = some 47 then t.takeWhile (fun c => c ≠ 63 ∧ c ≠ 35) else []

/-- The text of the path of a URL: of the whole text when it starts with a slash; otherwise of what
stands behind the first `//` that follows the colon, or, without one, everything behind the colon
up to the fragment. -/
def pathText (s : Bytes) : Bytes :=
  if s.head? = some 47 then hierPathText s
  else
    let target := (s.dropWhile (· ≠ 58)).drop 1
    match find (ascii "//") target with
    | some i => hierPathText (target.drop (i + 2))
    | none => target.takeWhile (· ≠ 35)

theorem captureUpTo_singleton (c : UInt8) (target : Bytes) :
    captureUpTo [c] target = before c target := by
  unfold captureUpTo
  split
  · next h => exact (before_eq_self (find_singleton_eq_none.mp h)).symm
  · next i h => exact (take_of_find h).1

/-- There is a query where a question mark stands before the fragment. -/
theorem hasQuery_eq (t : Bytes) : hasQuery t = decide (63 ∈ before 35 t) := by
  have hmark : ascii "?" = [63] := by decide
  have hhash : ascii "#" = [35] := by decide
  unfold hasQuery
  rw [hmark, hhash]
  rcases cut_cases 35 t with hf | ⟨u, v, hu, rfl⟩
  · rw [before_eq_self hf, find_singleton_eq_none.mpr hf]
    rcases cut_cases 63 t with hq | ⟨u, v, hu, rfl⟩
    · simp [find_singleton_eq_none.mpr hq, hq]
    · simp [find_singleton_append hu]
  · rw [before_append hu, find_singleton_append hu]
    rcases cut_cases 63 u with hq | ⟨w, x, hw, rfl⟩
    · rcases cut_cases 63 v with hv | ⟨w, x, hw, rfl⟩
      · rw [find_singleton_eq_none.mpr (by simp [hq, hv])]
        simp [hq]
      · have happ : u ++ 35 :: (w ++ 63 :: x) = (u ++ 35 :: w) ++ 63 :: x := by simp
        rw [happ, find_singleton_append (by simp [hq, hw])]
        simp [hq]
    · rw [List.append_assoc, List.cons_append, find_singleton_append hw]
      simp

/-- Up to the query, or up to the fragment when there is none: up to whichever comes first. -/
theorem capture_path (t : Bytes) :
    (if hasQuery t then captureUpTo (ascii "?") t else captureUpTo (ascii "#") t) =
      t.takeWhile (fun c => c ≠ 63 ∧ c ≠ 35) := by
  have hmark : ascii "?" = [63] := by decide
  have hhash : ascii "#" = [35] := by decide
  have hboth : t.takeWhile (fun c => c ≠ 63 ∧ c ≠ 35) = before 63 (before 35 t) := by
    rw [before, before, List.takeWhile_takeWhile]
    simp
  rw [hasQuery_eq, hmark, hhash, captureUpTo_singleton, captureUpTo_singleton, hboth]
  split
  · next hq =>
    obtain ⟨u, v, hbefore, hu⟩ := List.eq_append_cons_of_mem (of_decide_eq_true hq)
    have ht : t = u ++ 63 :: (v ++ t.dropWhile (· ≠ 35)) := by
      rw [← List.cons_append, ← List.append_assoc, ← hbefore]
      exact List.takeWhile_append_dropWhile.symm
    rw [hbefore, before_append hu, ht, before_append hu]
  · next hq => exact (before_eq_self (by simpa using hq)).symm

/-- The parser takes the path from where `hierPathText` says it stands. -/
theorem hierPart_path (target : Bytes) : (hierPart target).2.1 = hierPathText target := by
  unfold hierPart hierPathText
  cases hend : target.findIdx? fun c => decide (c = 47 ∨ c = 63 ∨ c = 35) with
  | none =>
    have hnil : target.dropWhile (fun c => ¬ (c = 47 ∨ c = 63 ∨ c = 35)) = [] := by
      rw [List.dropWhile_eq_nil_iff]
      intro c hc
      have := List.findIdx?_eq_none_iff.mp hend c hc
      simpa using this
    rw [hnil]
    simp only [Bool.false_eq_true, if_false]
    split
    · split <;> rfl
    · split <;> rfl
  | some i =>
    have hdrop : target.dropWhile (fun c => ¬ (c = 47 ∨ c = 63 ∨ c = 35)) = target.drop i := by
      obtain ⟨-, rfl⟩ := List.findIdx?_eq_some_iff_findIdx_eq.mp hend
      simp [List.dropWhile_eq_drop_findIdx_not]
    rw [hdrop]
    simp only [List.head?_drop]
    by_cases hslash : target[i]? = some 47
    · simp only [hslash, decide_true, if_true, ← capture_path]
      split
      · split <;> rfl
      · split <;> rfl
    · simp only [hslash, decide_false, Bool.false_eq_true, if_false]
      split
      · split <;> rfl
      · split <;> rfl

theorem schemePart_path {s scheme : Bytes} {rest : Rest} (h : schemePart s = .ok (scheme, rest)) :
    rest.components.2.1 = pathText s := by
  unfold schemePart at h
  unfold pathText
  split at h
  · rename_i hslash
    obtain ⟨rfl, rfl⟩ := Prod.mk.inj (Except.ok.inj h)
    rw [if_pos hslash]
    exact hierPart_path s
  · rename_i hslash
    have hcolon : ascii ":" = [58] := by decide
    rw [if_neg hslash]
    cases hfind : find [58] s with
    | none => simp [captureOrThrow, hcolon, hfind, bind, Except.bind] at h
    | some i =>
      have hbehind : s.drop (i + (ascii ":").length) = (s.dropWhile (· ≠ 58)).drop 1 := by
        rw [← (take_of_find hfind).2, List.drop_drop]
        rfl
      simp only [captureOrThrow, hcolon, hfind, bind, Except.bind] at h
      rw [← hcolon, hbehind] at h
      cases hauth : find (ascii "//") ((s.dropWhile (· ≠ 58)).drop 1) with
      | none =>
        simp only [existsForward, hauth, Option.isSome_none, Bool.false_eq_true, if_false] at h
        obtain ⟨-, rfl⟩ := Prod.mk.inj (Except.ok.inj h)
        simp only [hauth]
        exact captureUpTo_singleton 35 _
      | some j =>
        simp only [existsForward, moveBefore, hauth, Option.isSome_some, if_true] at h
        obtain ⟨-, rfl⟩ := Prod.mk.inj (Except.ok.inj h)
        simp only [hauth, Rest.components, hierPart_path]
        rw [List.drop_drop]

/-- What is stored of a text that is not empty. -/
theorem fromString_eq_ok {s : Bytes} {u : Url} (hs : s ≠ []) (h : fromString s = .ok u) :
    ∃ rest, schemePart s = .ok (u.scheme, rest) ∧
      rest.components = (u.authority, u.path, u.query, u.fragment) := by
  unfold fromString at h
  rw [if_neg hs] at h
  cases hscheme : schemePart s with
  | error e => simp [hscheme, bind, Except.bind] at h
  | ok r =>
    obtain ⟨scheme, rest⟩ := r
    cases hauth : authorityPart rest.components.1 with
    | error e => simp [hscheme, hauth, bind, Except.bind] at h
    | ok a =>
      simp only [hscheme, hauth, bind, Except.bind] at h
      rw [← Except.ok.inj h]
      exact ⟨rest, rfl, rfl⟩

/-- **The parser stores the path text** of every URL it accepts. -/
theorem fromString_path {s : Bytes} {u : Url} (h : fromString s = .ok u) : u.path = pathText s := by
  by_cases hs : s = []
  · subst hs
    cases h
    rfl
  · obtain ⟨rest, hscheme, hparts⟩ := fromString_eq_ok hs h
    rw [← schemePart_path hscheme, hparts]

/-- `url::get_path`, which decodes and does not look at whether that worked. -/
def Url.getPath (u : Url) : Bytes := (unescapePath u.path).1

end Avant.Utility
