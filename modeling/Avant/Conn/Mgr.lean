import Avant.Conn.Connection
import Avant.Lib.Inverse
import Mathlib.Data.Finset.Card

/-!
# The connection manager

Model of `src/connection/connection_mgr.cpp`: a pool of connections, the indices of the used and the
unused ones, and three maps between file descriptors, gids and indices. A `std::unordered_map` is
an `AList`, whose order stands for the unspecified order of iteration. `alloc_connection` takes the index
`*unused_set.begin()`, about which nothing is known but that it is an unused one; it is the
argument `it` here.

Results:
* `Ok.alloc`, `Ok.release`: the maps and the sets stay in step (`Ok`);
* **`consistent_calls`**: after every sequence of calls they agree with the connections that were
  allocated and not released.
-/

namespace Avant.Conn

open Avant.Lib

/-- A connection of the pool, with the identity it has while it is in use. -/
structure Slot where
  conn : Connection := {}
  fd : Int := -1
  gid : Nat := 0
  /-- `ctx_ptr` is set; it stays so when the connection is released -/
  hasCtx : Bool := false
  deriving DecidableEq

namespace Slot

/-- `connection::on_alloc`. -/
def onAlloc (c : Slot) (fd : Int) (gid : Nat) : Slot :=
  { c with conn := c.conn.onAlloc, fd := fd, gid := gid }

/-- `connection::on_release`. -/
def onRelease (c : Slot) : Slot := { c with conn := c.conn.onRelease, fd := -1, gid := 0 }

end Slot

structure ConnMgr where
  /-- `connection_pool` -/
  pool : Nat → Slot := fun _ => {}
  fd2gid : AList (fun _ : Int => Nat) := ∅
  gid2fd : AList (fun _ : Nat => Int) := ∅
  gid2index : AList (fun _ : Nat => Nat) := ∅
  usingSet : Finset Nat := ∅
  unusedSet : Finset Nat := ∅

namespace ConnMgr

/-- `connection_mgr::init`: one slot more than asked for. -/
def init (poolCapacity : Nat) : ConnMgr := { unusedSet := Finset.range (poolCapacity + 1) }

/-- `alloc_connection`, on an initialised manager: the code returned and the manager after it. -/
def allocConnection (m : ConnMgr) (fd : Int) (gid : Nat) (it : Nat) : Int × ConnMgr :=
  if fd ∈ m.fd2gid then (-2, m)
  else if gid ∈ m.gid2fd then (-3, m)
  else if gid ∈ m.gid2index then (-4, m)
  else if m.unusedSet = ∅ then (-5, m)
  else if it ∉ m.unusedSet then (-6, m)
  else (0, {
    pool := Function.update m.pool it ((m.pool it).onAlloc fd gid)
    fd2gid := m.fd2gid.insert fd gid
    gid2fd := m.gid2fd.insert gid fd
    gid2index := m.gid2index.insert gid it
    usingSet := insert it m.usingSet
    unusedSet := m.unusedSet.erase it })

/-- `release_connection`. -/
def releaseConnection (m : ConnMgr) (fd : Int) : Int × ConnMgr :=
  match m.fd2gid.lookup fd with
  | none => (-1, m)
  | some gid =>
    match m.gid2fd.lookup gid with
    | none => (-2, m)
    | some _ =>
      match m.gid2index.lookup gid with
      | none => (-3, m)
      | some index => (0, {
          pool := Function.update m.pool index (m.pool index).onRelease
          fd2gid := m.fd2gid.erase fd
          gid2fd := m.gid2fd.erase gid
          gid2index := m.gid2index.erase gid
          usingSet := m.usingSet.erase index
          unusedSet := insert index m.unusedSet })

/-- `pool_capacity`. -/
def poolCapacity (m : ConnMgr) : Nat := m.unusedSet.card + m.usingSet.card

/-- `get_conn`: the index of the connection. -/
def getConn (m : ConnMgr) (fd : Int) : Option Nat :=
  (m.fd2gid.lookup fd).bind fun gid => m.gid2index.lookup gid

/-- `get_conn_by_gid`. -/
def getConnByGid (m : ConnMgr) (gid : Nat) : Option Nat := m.gid2index.lookup gid

/-- `get_conn_by_idx`. -/
def getConnByIdx (m : ConnMgr) (idx : Nat) : Option Nat :=
  if idx ≥ m.poolCapacity then none else some idx

/-- `get_conn(fd)->get_gid()`, of a connection that is there. -/
def gidOf (m : ConnMgr) (fd : Int) : Option Nat := (m.getConn fd).map fun i => (m.pool i).gid

/-- `*get_conn(fd)`, of a connection that is there. -/
def connOf (m : ConnMgr) (fd : Int) : Option Connection :=
  (m.getConn fd).map fun i => (m.pool i).conn

/-- The connection at place `i` changes. -/
def setConn (m : ConnMgr) (i : Nat) (c : Connection) : ConnMgr :=
  { m with pool := Function.update m.pool i { m.pool i with conn := c } }

/-- The connection at place `i` gets a context. -/
def setCtx (m : ConnMgr) (i : Nat) : ConnMgr :=
  { m with pool := Function.update m.pool i { m.pool i with hasCtx := true } }

@[simp] theorem setConn_pool (m : ConnMgr) (i : Nat) (c : Connection) :
    (m.setConn i c).pool = Function.update m.pool i { m.pool i with conn := c } := rfl

@[simp] theorem gidOf_setConn (m : ConnMgr) (i : Nat) (c : Connection) (fd : Int) :
    (m.setConn i c).gidOf fd = m.gidOf fd := by
  have hgid : ∀ j, ((m.setConn i c).pool j).gid = (m.pool j).gid := by
    intro j
    by_cases hj : j = i
    · simp [setConn, hj]
    · simp [setConn, hj]
  simp only [gidOf, hgid]
  rfl

@[simp] theorem setCtx_pool (m : ConnMgr) (i : Nat) :
    (m.setCtx i).pool = Function.update m.pool i { m.pool i with hasCtx := true } := rfl

/-- The maps and sets of a manager with `n` slots are in step. -/
structure Ok (n : Nat) (m : ConnMgr) : Prop where
  inverse : ∀ fd gid, m.fd2gid.lookup fd = some gid ↔ m.gid2fd.lookup gid = some fd
  keys : ∀ gid, (∃ i, m.gid2index.lookup gid = some i) ↔ ∃ fd, m.gid2fd.lookup gid = some fd
  injective : ∀ gid gid' i, m.gid2index.lookup gid = some i → m.gid2index.lookup gid' = some i →
    gid = gid'
  used : ∀ i, i ∈ m.usingSet ↔ ∃ gid, m.gid2index.lookup gid = some i
  disjoint : Disjoint m.usingSet m.unusedSet
  all : m.usingSet ∪ m.unusedSet = Finset.range n
  pool : ∀ fd gid i, m.gid2fd.lookup gid = some fd → m.gid2index.lookup gid = some i →
    (m.pool i).fd = fd ∧ (m.pool i).gid = gid

namespace Ok

variable {n : Nat} {m : ConnMgr}

theorem init (poolCapacity : Nat) : Ok (poolCapacity + 1) (ConnMgr.init poolCapacity) :=
  ⟨by simp [ConnMgr.init], by simp [ConnMgr.init], by simp [ConnMgr.init], by simp [ConnMgr.init],
    by simp [ConnMgr.init], by simp [ConnMgr.init], by simp [ConnMgr.init]⟩

variable (h : Ok n m)

include h

theorem poolCapacity_eq : m.poolCapacity = n := by
  rw [poolCapacity, Nat.add_comm, ← Finset.card_union_of_disjoint h.disjoint, h.all,
    Finset.card_range]

theorem lt_of_lookup {gid i : Nat} (hi : m.gid2index.lookup gid = some i) : i < n := by
  have hmem : i ∈ m.usingSet ∪ m.unusedSet :=
    Finset.mem_union_left _ ((h.used i).mpr ⟨gid, hi⟩)
  rw [h.all] at hmem
  exact Finset.mem_range.mp hmem

theorem gid_eq {gid i : Nat} (hi : m.gid2index.lookup gid = some i) : (m.pool i).gid = gid := by
  obtain ⟨fd, hfd⟩ := (h.keys gid).mp ⟨i, hi⟩
  exact (h.pool fd gid i hfd hi).2

/-- An unused slot is nobody's. -/
theorem fresh {i : Nat} (hi : i ∈ m.unusedSet) (gid : Nat) :
    m.gid2index.lookup gid ≠ some i := fun hgid =>
  Finset.disjoint_left.mp h.disjoint ((h.used i).mpr ⟨gid, hgid⟩) hi

/-- What becomes of a connection in use keeps its identity. -/
theorem update {i : Nat} {c : Slot} (hfd : c.fd = (m.pool i).fd) (hgid : c.gid = (m.pool i).gid) :
    Ok n { m with pool := Function.update m.pool i c } := by
  refine { h with pool := fun fd gid j hf hj => ?_ }
  dsimp only
  by_cases hji : j = i
  · subst hji
    rw [Function.update_self, hfd, hgid]
    exact h.pool fd gid j hf hj
  · rw [Function.update_of_ne hji]
    exact h.pool fd gid j hf hj

theorem setConn (i : Nat) (c : Connection) : Ok n (m.setConn i c) := h.update rfl rfl

theorem setCtx (i : Nat) : Ok n (m.setCtx i) := h.update rfl rfl

/-- **Allocating keeps the maps in step**, and an error changes nothing. -/
theorem alloc (fd : Int) (gid it : Nat) :
    Ok n (m.allocConnection fd gid it).2 ∧
      ((m.allocConnection fd gid it).1 ≠ 0 → (m.allocConnection fd gid it).2 = m) := by
  unfold allocConnection
  split_ifs with hfd hgid hidx hempty hit
  · exact ⟨h, fun _ => rfl⟩
  · exact ⟨h, fun _ => rfl⟩
  · exact ⟨h, fun _ => rfl⟩
  · exact ⟨h, fun _ => rfl⟩
  swap
  · exact ⟨h, fun _ => rfl⟩
  refine ⟨?_, fun hc => absurd rfl hc⟩
  rw [← AList.lookup_eq_none] at hfd hgid hidx
  have hnew : ∀ g, m.gid2index.lookup g ≠ some it := h.fresh hit
  refine ⟨fun fd' g => ?_, fun g => ?_, fun g g' i hg hg' => ?_, fun i => ?_, ?_, ?_,
    fun fd' g i hf hi => ?_⟩
  · have hinv := inverse_insert h.inverse hfd hgid fd' g
    simpa only [Function.update_apply, ← lookup_insert_eq] using hinv
  · simp only [lookup_insert_eq]
    by_cases hg : g = gid
    · simp [hg]
    · simpa [hg] using h.keys g
  · simp only [lookup_insert_eq] at hg hg'
    split_ifs at hg hg' with h₁ h₂ h₂
    · rw [h₁, h₂]
    · cases hg
      exact absurd hg' (hnew g')
    · cases hg'
      exact absurd hg (hnew g)
    · exact h.injective g g' i hg hg'
  · simp only [lookup_insert_eq, Finset.mem_insert]
    constructor
    · rintro (rfl | hi)
      · exact ⟨gid, if_pos rfl⟩
      · obtain ⟨g, hg⟩ := (h.used i).mp hi
        have hne : g ≠ gid := by
          rintro rfl
          rw [hidx] at hg
          exact absurd hg (by simp)
        exact ⟨g, by rw [if_neg hne, hg]⟩
    · rintro ⟨g, hg⟩
      split_ifs at hg
      · exact .inl (Option.some.inj hg).symm
      · exact .inr ((h.used i).mpr ⟨g, hg⟩)
  · rw [Finset.disjoint_insert_left]
    exact ⟨Finset.notMem_erase it _,
      Finset.disjoint_of_subset_right (Finset.erase_subset it _) h.disjoint⟩
  · rw [← h.all, Finset.insert_union, ← Finset.union_insert, Finset.insert_erase hit]
  · simp only [lookup_insert_eq] at hf hi
    split_ifs at hf hi with hg
    · cases hi
      dsimp only
      rw [Function.update_self]
      exact ⟨Option.some.inj hf, hg.symm⟩
    · have hne : i ≠ it := by
        rintro rfl
        exact hnew g hi
      dsimp only
      rw [Function.update_of_ne hne]
      exact h.pool fd' g i hf hi

/-- **Releasing keeps the maps in step**, and an error changes nothing. -/
theorem release (fd : Int) :
    Ok n (m.releaseConnection fd).2 ∧
      ((m.releaseConnection fd).1 ≠ 0 → (m.releaseConnection fd).2 = m) := by
  unfold releaseConnection
  cases hfd : m.fd2gid.lookup fd with
  | none => exact ⟨h, fun _ => rfl⟩
  | some gid =>
    have hgid : m.gid2fd.lookup gid = some fd := (h.inverse fd gid).mp hfd
    obtain ⟨idx, hidx⟩ := (h.keys gid).mpr ⟨fd, hgid⟩
    simp only [hgid, hidx]
    refine ⟨?_, fun hc => absurd rfl hc⟩
    have hused : idx ∈ m.usingSet := (h.used idx).mpr ⟨gid, hidx⟩
    refine ⟨fun fd' g => ?_, fun g => ?_, fun g g' i hg hg' => ?_, fun i => ?_, ?_, ?_,
      fun fd' g i hf hi => ?_⟩
    · have hinv := inverse_erase h.inverse hfd fd' g
      simpa only [Function.update_apply, ← lookup_erase_eq] using hinv
    · simp only [lookup_erase_eq]
      by_cases hg : g = gid
      · simp [hg]
      · simpa [hg] using h.keys g
    · simp only [lookup_erase_eq] at hg hg'
      split_ifs at hg hg'
      exact h.injective g g' i hg hg'
    · simp only [lookup_erase_eq, Finset.mem_erase]
      constructor
      · rintro ⟨hne, hi⟩
        obtain ⟨g, hg⟩ := (h.used i).mp hi
        have hgne : g ≠ gid := by
          rintro rfl
          exact hne (Option.some.inj (hg.symm.trans hidx))
        exact ⟨g, by rw [if_neg hgne, hg]⟩
      · rintro ⟨g, hg⟩
        split_ifs at hg with hgg
        refine ⟨?_, (h.used i).mpr ⟨g, hg⟩⟩
        rintro rfl
        exact hgg (h.injective g gid i hg hidx)
    · rw [Finset.disjoint_insert_right]
      exact ⟨Finset.notMem_erase idx _,
        Finset.disjoint_of_subset_left (Finset.erase_subset idx _) h.disjoint⟩
    · rw [← h.all, Finset.union_insert, ← Finset.insert_union, Finset.insert_erase hused]
    · simp only [lookup_erase_eq] at hf hi
      split_ifs at hf hi with hg
      have hne : i ≠ idx := by
        rintro rfl
        exact hg (h.injective g gid i hi hidx)
      dsimp only
      rw [Function.update_of_ne hne]
      exact h.pool fd' g i hf hi

end Ok

/-- A new manager has a slot for the first connection, wherever the iterator points. -/
theorem alloc_init (poolCapacity : Nat) (fd : Int) (gid : Nat) (it : Fin (poolCapacity + 1)) :
    ((init poolCapacity).allocConnection fd gid it).1 = 0 := by
  have hit : (it : Nat) ∈ Finset.range (poolCapacity + 1) := Finset.mem_range.mpr it.isLt
  simp [allocConnection, init, hit]

/-! ## Sequences of calls -/

/-- A call that changes the manager, with the index the iterator of `unused_set` points at. -/
inductive Call
  | alloc (fd : Int) (gid : Nat) (it : Nat)
  | release (fd : Int)

/-- The code a call returns, and the manager after it. -/
def call (m : ConnMgr) : Call → Int × ConnMgr
  | .alloc fd gid it => m.allocConnection fd gid it
  | .release fd => m.releaseConnection fd

/-- The pairs of file descriptor and gid in use after a call that returned `code`. -/
def nextLive (live : Finset (Int × Nat)) (code : Int) : Call → Finset (Int × Nat)
  | .alloc fd gid _ => if code = 0 then insert (fd, gid) live else live
  | .release fd => if code = 0 then live.filter (fun x => x.1 ≠ fd) else live

/-- The manager, and the pairs in use, after a sequence of calls. -/
def calls (poolCapacity : Nat) : List Call → ConnMgr × Finset (Int × Nat) :=
  List.foldl (fun x c => ((x.1.call c).2, nextLive x.2 (x.1.call c).1 c)) (init poolCapacity, ∅)

/-- What a manager of `n` slots owes its callers when the pairs `live` are in use. -/
structure Consistent (n : Nat) (live : Finset (Int × Nat)) (m : ConnMgr) : Prop where
  /-- `fd2gid` and `gid2fd` are inverse to each other, and hold the pairs in use -/
  fd2gid : ∀ fd gid, m.fd2gid.lookup fd = some gid ↔ (fd, gid) ∈ live
  gid2fd : ∀ fd gid, m.gid2fd.lookup gid = some fd ↔ (fd, gid) ∈ live
  /-- the keys of `gid2index` are the gids in use -/
  keys : ∀ gid, gid ∈ m.gid2index ↔ ∃ fd, (fd, gid) ∈ live
  /-- it maps them one to one onto `using_set` -/
  injective : ∀ gid gid' i, m.gid2index.lookup gid = some i → m.gid2index.lookup gid' = some i →
    gid = gid'
  onto : ∀ i, i ∈ m.usingSet ↔ ∃ gid, m.gid2index.lookup gid = some i
  /-- every index is used or unused, and not both -/
  disjoint : Disjoint m.usingSet m.unusedSet
  all : m.usingSet ∪ m.unusedSet = Finset.range n
  /-- a call that fails changes nothing -/
  failed : ∀ c, (m.call c).1 ≠ 0 → (m.call c).2 = m
  /-- both ways to look up a pair in use lead to the same connection -/
  found : ∀ fd gid, (fd, gid) ∈ live → ∃ i, m.getConn fd = some i ∧ m.getConnByGid gid = some i
  /-- and nothing else is found -/
  unknownFd : ∀ fd, (∀ gid, (fd, gid) ∉ live) → m.getConn fd = none
  unknownGid : ∀ gid, (∀ fd, (fd, gid) ∉ live) → m.getConnByGid gid = none

namespace Ok

variable {n : Nat} {m : ConnMgr} {live : Finset (Int × Nat)}

theorem call (h : Ok n m) (c : Call) :
    Ok n (m.call c).2 ∧ ((m.call c).1 ≠ 0 → (m.call c).2 = m) := by
  cases c with
  | alloc fd gid it => exact h.alloc fd gid it
  | release fd => exact h.release fd

variable {fd fd' : Int} {gid it i : Nat}

/-- An `alloc_connection` that returns 0: both numbers are new, and `it` is taken for them. -/
theorem alloc_eq (hcode : (m.allocConnection fd gid it).1 = 0) :
    m.fd2gid.lookup fd = none ∧ m.gid2fd.lookup gid = none ∧ it ∈ m.unusedSet ∧
      (m.allocConnection fd gid it).2 = {
        pool := Function.update m.pool it ((m.pool it).onAlloc fd gid)
        fd2gid := m.fd2gid.insert fd gid
        gid2fd := m.gid2fd.insert gid fd
        gid2index := m.gid2index.insert gid it
        usingSet := insert it m.usingSet
        unusedSet := m.unusedSet.erase it } := by
  unfold allocConnection at hcode ⊢
  split_ifs at hcode ⊢ with hfd hgid hidx hempty hit
  all_goals first
    | exact ⟨AList.lookup_eq_none.mpr hfd, AList.lookup_eq_none.mpr hgid, hit, rfl⟩
    | simp at hcode

theorem alloc_fd2gid (hcode : (m.allocConnection fd gid it).1 = 0) :
    m.fd2gid.lookup fd = none ∧
      (m.allocConnection fd gid it).2.fd2gid = m.fd2gid.insert fd gid := by
  obtain ⟨hfd, -, -, heq⟩ := alloc_eq hcode
  exact ⟨hfd, by rw [heq]⟩

theorem alloc_gid2fd (hcode : (m.allocConnection fd gid it).1 = 0) : m.gid2fd.lookup gid = none :=
  (alloc_eq hcode).2.1

theorem release_fd2gid (hcode : (m.releaseConnection fd).1 = 0) :
    (m.releaseConnection fd).2.fd2gid = m.fd2gid.erase fd := by
  unfold releaseConnection at hcode ⊢
  split at hcode
  · simp at hcode
  · split at hcode
    · simp at hcode
    · split at hcode
      · simp at hcode
      · rfl

variable (h : Ok n m)

include h

/-- A connection answers with the gid it is kept under. -/
theorem gidOf_eq (fd : Int) : m.gidOf fd = m.fd2gid.lookup fd := by
  cases hfd : m.fd2gid.lookup fd with
  | none => simp [gidOf, getConn, hfd]
  | some gid =>
    obtain ⟨i, hi⟩ := (h.keys gid).mpr ⟨fd, (h.inverse fd gid).mp hfd⟩
    simp [gidOf, getConn, hfd, hi, h.gid_eq hi]

theorem gidOf_injective (hfd : m.gidOf fd = some gid) (hfd' : m.gidOf fd' = some gid) :
    fd = fd' := by
  rw [h.gidOf_eq, h.inverse] at hfd hfd'
  exact Option.some.inj (hfd.symm.trans hfd')

/-- What is found by gid is what some file descriptor has. -/
theorem getConnByGid_isSome (gid : Nat) :
    (m.getConnByGid gid).isSome ↔ ∃ fd, m.gidOf fd = some gid := by
  rw [getConnByGid, Option.isSome_iff_exists, h.keys]
  simp only [h.gidOf_eq, h.inverse]

theorem gidOf_alloc (hcode : (m.allocConnection fd gid it).1 = 0) (fd' : Int) :
    (m.allocConnection fd gid it).2.gidOf fd' = if fd' = fd then some gid else m.gidOf fd' := by
  rw [(h.alloc fd gid it).1.gidOf_eq, (alloc_fd2gid hcode).2, lookup_insert_eq, h.gidOf_eq]

theorem gidOf_release (fd fd' : Int) :
    (m.releaseConnection fd).2.gidOf fd' = if fd' = fd then none else m.gidOf fd' := by
  by_cases hcode : (m.releaseConnection fd).1 = 0
  · rw [(h.release fd).1.gidOf_eq, release_fd2gid hcode, lookup_erase_eq, h.gidOf_eq]
  · rw [(h.release fd).2 hcode]
    split
    · -- only a connection that is not there is not released
      rename_i heq
      subst heq
      rw [h.gidOf_eq]
      by_contra hne
      obtain ⟨gid, hfd⟩ := Option.ne_none_iff_exists'.mp hne
      have hgid := (h.inverse fd' gid).mp hfd
      obtain ⟨i, hi⟩ := (h.keys gid).mpr ⟨fd', hgid⟩
      exact hcode (by simp [releaseConnection, hfd, hgid, hi])
    · rfl

theorem release_eq (hfd : m.gidOf fd = some gid) :
    ∃ i, m.gid2index.lookup gid = some i ∧ (m.releaseConnection fd).2 = {
      pool := Function.update m.pool i (m.pool i).onRelease
      fd2gid := m.fd2gid.erase fd
      gid2fd := m.gid2fd.erase gid
      gid2index := m.gid2index.erase gid
      usingSet := m.usingSet.erase i
      unusedSet := insert i m.unusedSet } := by
  rw [h.gidOf_eq] at hfd
  have hgid := (h.inverse fd gid).mp hfd
  obtain ⟨i, hi⟩ := (h.keys gid).mpr ⟨fd, hgid⟩
  exact ⟨i, hi, by simp [releaseConnection, hfd, hgid, hi]⟩

omit h in
theorem getConnByGid_alloc (hcode : (m.allocConnection fd gid it).1 = 0) (gid' : Nat) :
    (m.allocConnection fd gid it).2.getConnByGid gid' =
      if gid' = gid then some it else m.getConnByGid gid' := by
  rw [(alloc_eq hcode).2.2.2]
  exact lookup_insert_eq m.gid2index gid gid' it

theorem getConnByGid_release (hfd : m.gidOf fd = some gid) (gid' : Nat) :
    (m.releaseConnection fd).2.getConnByGid gid' =
      if gid' = gid then none else m.getConnByGid gid' := by
  obtain ⟨i, -, heq⟩ := h.release_eq hfd
  rw [heq]
  exact lookup_erase_eq m.gid2index gid gid'

/-- Two file descriptors with one place are one. -/
theorem getConn_injective (hi : m.getConn fd = some i) (hi' : m.getConn fd' = some i) :
    fd = fd' := by
  obtain ⟨gid, hfd, hidx⟩ := Option.bind_eq_some_iff.mp hi
  obtain ⟨gid', hfd', hidx'⟩ := Option.bind_eq_some_iff.mp hi'
  obtain rfl := h.injective gid gid' i hidx hidx'
  rw [h.inverse] at hfd hfd'
  exact Option.some.inj (hfd.symm.trans hfd')

theorem getConn_of_gidOf (hfd : m.gidOf fd = some gid) : m.getConn fd = m.getConnByGid gid := by
  rw [h.gidOf_eq] at hfd
  rw [getConn, hfd]
  rfl

omit h in
theorem gidOf_of_getConn (hi : m.getConn fd = some i) : m.gidOf fd = some (m.pool i).gid := by
  rw [gidOf, hi]
  rfl

/-- A new connection stands at the place it was given, and the others at theirs. -/
theorem getConn_alloc (hcode : (m.allocConnection fd gid it).1 = 0) (fd' : Int) :
    (m.allocConnection fd gid it).2.getConn fd' = if fd' = fd then some it else m.getConn fd' := by
  have hok := (h.alloc fd gid it).1
  have hgid := h.gidOf_alloc hcode fd'
  split
  · rename_i heq
    rw [if_pos heq] at hgid
    rw [hok.getConn_of_gidOf hgid, getConnByGid_alloc hcode, if_pos rfl]
  · rename_i hne
    rw [if_neg hne] at hgid
    cases hold : m.gidOf fd' with
    | none =>
      rw [hold] at hgid
      have hnone : ∀ {m : ConnMgr}, m.gidOf fd' = none → m.getConn fd' = none := by
        intro m hm
        simpa [gidOf] using hm
      rw [hnone hgid, hnone hold]
    | some gid' =>
      rw [hold] at hgid
      have hne' : gid' ≠ gid := by
        rintro rfl
        rw [h.gidOf_eq, h.inverse, alloc_gid2fd hcode] at hold
        simp at hold
      rw [hok.getConn_of_gidOf hgid, h.getConn_of_gidOf hold, getConnByGid_alloc hcode,
        if_neg hne']

theorem connOf_alloc (hcode : (m.allocConnection fd gid it).1 = 0) (fd' : Int) :
    (m.allocConnection fd gid it).2.connOf fd' =
      if fd' = fd then some (m.pool it).conn.onAlloc else m.connOf fd' := by
  obtain ⟨-, -, hit, heq⟩ := alloc_eq hcode
  rw [connOf, h.getConn_alloc hcode]
  split
  · simp [heq, Slot.onAlloc]
  · cases hi : m.getConn fd' with
    | none => simp [connOf, hi]
    | some i =>
      have hne : i ≠ it := by
        rintro rfl
        obtain ⟨gid', -, hidx⟩ := Option.bind_eq_some_iff.mp hi
        exact h.fresh hit gid' hidx
      simp [connOf, hi, heq, hne]

theorem connOf_release (hfd : m.gidOf fd = some gid) (hne : fd' ≠ fd) :
    (m.releaseConnection fd).2.connOf fd' = m.connOf fd' := by
  obtain ⟨i, hi, heq⟩ := h.release_eq hfd
  have hgid' := (h.gidOf_release fd fd').trans (if_neg hne)
  cases hold : m.gidOf fd' with
  | none =>
    rw [hold] at hgid'
    have hnone : ∀ {m : ConnMgr}, m.gidOf fd' = none → m.connOf fd' = none := by
      intro m hm
      simpa [gidOf, connOf] using hm
    rw [hnone hgid', hnone hold]
  | some gid' =>
    rw [hold] at hgid'
    have hne' : gid' ≠ gid := by
      rintro rfl
      exact hne (h.gidOf_injective hold hfd)
    have hconn : (m.releaseConnection fd).2.getConn fd' = m.getConn fd' := by
      rw [(h.release fd).1.getConn_of_gidOf hgid', h.getConn_of_gidOf hold,
        h.getConnByGid_release hfd, if_neg hne']
    rw [connOf, connOf, hconn]
    cases hj : m.getConn fd' with
    | none => rfl
    | some j =>
      have hji : j ≠ i := by
        rintro rfl
        rw [h.getConn_of_gidOf hold] at hj
        exact hne' (h.injective gid' gid j hj hi)
      simp [heq, hji]

theorem connOf_setConn (hi : m.getConn fd = some i) (c : Connection) (fd' : Int) :
    (m.setConn i c).connOf fd' = if fd' = fd then some c else m.connOf fd' := by
  have hconn : (m.setConn i c).getConn fd' = m.getConn fd' := rfl
  rw [connOf, hconn]
  split
  · rename_i heq
    subst heq
    simp [hi]
  · rename_i hne
    cases hj : m.getConn fd' with
    | none => simp [connOf, hj]
    | some j =>
      have hji : j ≠ i := by
        rintro rfl
        exact hne (h.getConn_injective hj hi)
      simp [connOf, hj, hji, ConnMgr.setConn]

/-- A call keeps the pairs in use in step with `fd2gid`. -/
theorem nextLive (hlive : ∀ fd gid, m.fd2gid.lookup fd = some gid ↔ (fd, gid) ∈ live) (c : Call)
    (fd : Int) (gid : Nat) :
    (m.call c).2.fd2gid.lookup fd = some gid ↔ (fd, gid) ∈ nextLive live (m.call c).1 c := by
  by_cases hcode : (m.call c).1 = 0
  · cases c with
    | alloc fd' gid' it =>
      obtain ⟨hnew, hinsert⟩ := alloc_fd2gid hcode
      rw [ConnMgr.nextLive, if_pos hcode, ConnMgr.call, hinsert, lookup_insert_eq,
        Finset.mem_insert, ← hlive fd gid, Prod.mk.injEq]
      by_cases heq : fd = fd'
      · subst heq
        simp [hnew, eq_comm]
      · simp [heq]
    | release fd' =>
      rw [ConnMgr.nextLive, if_pos hcode, ConnMgr.call, release_fd2gid hcode, lookup_erase_eq,
        Finset.mem_filter, ← hlive fd gid]
      by_cases heq : fd = fd' <;> simp [heq]
  · rw [(h.call c).2 hcode]
    cases c with
    | alloc fd' gid' it =>
      rw [ConnMgr.nextLive, if_neg hcode]
      exact hlive fd gid
    | release fd' =>
      rw [ConnMgr.nextLive, if_neg hcode]
      exact hlive fd gid

/-- Maps and sets that are in step serve their callers. -/
theorem consistent (hlive : ∀ fd gid, m.fd2gid.lookup fd = some gid ↔ (fd, gid) ∈ live) :
    Consistent n live m where
  fd2gid := hlive
  gid2fd fd gid := (h.inverse fd gid).symm.trans (hlive fd gid)
  keys gid := by
    rw [← AList.lookup_isSome, Option.isSome_iff_exists, h.keys]
    simp only [← h.inverse, hlive]
  injective := h.injective
  onto := h.used
  disjoint := h.disjoint
  all := h.all
  failed c := (h.call c).2
  found fd gid hmem := by
    have hfd : m.fd2gid.lookup fd = some gid := (hlive fd gid).mpr hmem
    obtain ⟨i, hi⟩ := (h.keys gid).mpr ⟨fd, (h.inverse fd gid).mp hfd⟩
    exact ⟨i, by rw [getConn, hfd]; exact hi, hi⟩
  unknownFd fd hno := by
    cases hfd : m.fd2gid.lookup fd with
    | none => rw [getConn, hfd]; rfl
    | some gid => exact absurd ((hlive fd gid).mp hfd) (hno gid)
  unknownGid gid hno := by
    cases hidx : m.gid2index.lookup gid with
    | none => exact hidx
    | some i =>
      obtain ⟨fd, hfd⟩ := (h.keys gid).mp ⟨i, hidx⟩
      exact absurd ((hlive fd gid).mp ((h.inverse fd gid).mpr hfd)) (hno fd)

end Ok

/-- **The maps and sets of the manager agree** after every sequence of calls, with whatever file
descriptors and gids, with the pairs that were allocated and not released. -/
theorem consistent_calls (poolCapacity : Nat) (cs : List Call) :
    Consistent (poolCapacity + 1) (calls poolCapacity cs).2 (calls poolCapacity cs).1 := by
  -- what a call preserves, from any state; the run is by induction from its start
  have hrun : ∀ (cs : List Call) (x : ConnMgr × Finset (Int × Nat)), Ok (poolCapacity + 1) x.1 →
      (∀ fd gid, x.1.fd2gid.lookup fd = some gid ↔ (fd, gid) ∈ x.2) →
      Consistent (poolCapacity + 1)
        (cs.foldl (fun x c => ((x.1.call c).2, nextLive x.2 (x.1.call c).1 c)) x).2
        (cs.foldl (fun x c => ((x.1.call c).2, nextLive x.2 (x.1.call c).1 c)) x).1 := by
    intro cs
    induction cs with
    | nil => exact fun x h hlive => h.consistent hlive
    | cons c cs ih => exact fun x h hlive => ih _ (h.call c).1 (h.nextLive hlive c)
  exact hrun cs (init poolCapacity, ∅) (Ok.init poolCapacity) (by simp [init])

end ConnMgr

end Avant.Conn
