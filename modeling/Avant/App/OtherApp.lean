import Avant.Lib.BigEndian
import Avant.Lib.Inverse

/-!
# IPC identities of a process

Model of the part of the other thread that knows its peers: the maps of `src/workers/other.cpp`
(connections this process dialled, by gid and by app id; connections it accepted) and the
authenticated pairs of `src/app/other_app.cpp`, with the functions that change them. A map is the
function it denotes, `none` for an absent key.

A function that sends on the connection it runs on returns the packages to send. The bytes of a
connection are those of `Proto/Frame.lean`; here a package is what `on_recv_package` is called
with.

Left out here: failures of `connect`, `alloc_connection` and `epoll`, after which no map has
changed and no package was sent; `Workers/Other.lean` has them, with the connections themselves, and
shows that the maps change as here where none occurs.
-/

namespace Avant.App

open Avant.Lib

abbrev Gid := Nat

abbrev AppId := Bytes

/-- A package on an IPC connection. -/
inductive IpcPackage (π : Type)
  /-- `PROTO_CMD_IPC_STREAM_AUTH_HANDSHAKE`, with the app id if it parses -/
  | handshake (info : Option AppId)
  /-- any other command -/
  | message (p : π)
  deriving DecidableEq

/-- What becomes of a package in `on_recv_package`. -/
inductive IpcOutcome (π : Type)
  | handshake
  /-- dropped, since the connection has no authenticated app id -/
  | unauthenticated (p : π)
  /-- handed on to the Lua VM as coming from an app id -/
  | received (sender : AppId) (p : π)
  deriving DecidableEq

/-- The identities a process keeps. -/
structure Other where
  /-- `get_config().get_app_id()` -/
  appId : AppId
  /-- `authenticated_ipc_pair.gid2appid` -/
  gid2appid : Gid → Option AppId := fun _ => none
  /-- `authenticated_ipc_pair.appid2gid` -/
  appid2gid : AppId → Option Gid := fun _ => none
  this2remoteGid2appid : Gid → Option AppId := fun _ => none
  this2remoteAppid2gid : AppId → Option Gid := fun _ => none
  /-- `m_remote2this_gid` -/
  remote2thisGid : Gid → Bool := fun _ => false
  /-- the gids `ipc_connection_mgr` has allocated -/
  live : Gid → Bool := fun _ => false

namespace Other

variable {π : Type}

/-- The connections become those of `live`. -/
def withLive (live : Gid → Bool) (s : Other) : Other := { s with live := live }

/-- `other::is_this2remote`. -/
def isThis2remote (s : Other) (gid : Gid) : Bool := (s.this2remoteGid2appid gid).isSome

/-- `other::is_remote2this`. -/
def isRemote2this (s : Other) (gid : Gid) : Bool := s.remote2thisGid gid

/-- `ProtoIPCStreamAuthHandshake` with the app id of this process. -/
def whoami (s : Other) : IpcPackage π := .handshake (some s.appId)

/-- One turn of the loop of `other::ipc_client_to_connect`, for the item `appId` and a connection
that gets `gid`: `none` when the item is skipped. -/
def ipcClientToConnect (s : Other) (appId : AppId) (gid : Gid) : Option Other :=
  if appId = s.appId then none
  else if (s.this2remoteAppid2gid appId).isSome then none
  else some { s with
    live := Function.update s.live gid true
    this2remoteAppid2gid := Function.update s.this2remoteAppid2gid appId (some gid)
    this2remoteGid2appid := Function.update s.this2remoteGid2appid gid (some appId) }

/-- `other::on_new_ipc_client_fd` with `on_new_connection_remote2this`: the accepting side says who
it is. -/
def onNewIpcClientFd (s : Other) (gid : Gid) : Other × List (IpcPackage π) :=
  let s := { s with
    live := Function.update s.live gid true
    remote2thisGid := Function.update s.remote2thisGid gid true }
  (s, [s.whoami])

/-- The pair is authenticated, unless its app id or its connection already is. -/
def authenticate (s : Other) (appId : AppId) (gid : Gid) : Other :=
  if s.appid2gid appId = none then
    if s.gid2appid gid = none then
      { s with
        appid2gid := Function.update s.appid2gid appId (some gid)
        gid2appid := Function.update s.gid2appid gid (some appId) }
    else s
  else s

/-- `other_app::on_recv_package` on connection `gid`: the new state, what is sent back on the
connection, and what became of the package. -/
def onRecvPackage (s : Other) (gid : Gid) :
    IpcPackage π → Other × List (IpcPackage π) × IpcOutcome π
  | .handshake info =>
    let reply := if s.isThis2remote gid then [s.whoami] else []
    match info with
    | some appId => (s.authenticate appId gid, reply, .handshake)
    | none => (s, reply, .handshake)
  | .message p =>
    match s.gid2appid gid with
    | none => (s, [], .unauthenticated p)
    | some appId => (s, [], .received appId p)

/-- `other_app::on_close_connection`. -/
def onCloseConnection (s : Other) (gid : Gid) : Other :=
  match s.gid2appid gid with
  | none => s
  | some appId => { s with
      gid2appid := Function.update s.gid2appid gid none
      appid2gid := Function.update s.appid2gid appId none }

/-- A connection that was dialled is noted, in `other::ipc_client_to_connect`. -/
def addThis2remote (s : Other) (appId : AppId) (gid : Gid) : Other :=
  { s with
    this2remoteAppid2gid := Function.update s.this2remoteAppid2gid appId (some gid)
    this2remoteGid2appid := Function.update s.this2remoteGid2appid gid (some appId) }

/-- A connection that was accepted is noted, in `other::on_new_ipc_client_fd`. -/
def addRemote2this (s : Other) (gid : Gid) : Other :=
  { s with remote2thisGid := Function.update s.remote2thisGid gid true }

/-- A connection that was dialled is forgotten, in `other::close_ipc_client_fd`. -/
def eraseThis2remote (s : Other) (gid : Gid) : Other :=
  match s.this2remoteGid2appid gid with
  | none => s
  | some appId => { s with
      this2remoteAppid2gid := Function.update s.this2remoteAppid2gid appId none
      this2remoteGid2appid := Function.update s.this2remoteGid2appid gid none }

/-- A connection that was accepted is forgotten, in `other::close_ipc_client_fd`. -/
def eraseRemote2this (s : Other) (gid : Gid) : Other :=
  { s with remote2thisGid := Function.update s.remote2thisGid gid false }

theorem eraseThis2remote_of_none {s : Other} {gid : Gid} (h : s.this2remoteGid2appid gid = none) :
    s.eraseThis2remote gid = s := by
  rw [eraseThis2remote, h]

theorem eraseRemote2this_of_false {s : Other} {gid : Gid} (h : s.remote2thisGid gid = false) :
    s.eraseRemote2this gid = s := by
  rw [eraseRemote2this, Function.update_eq_self_iff.mpr h.symm]

theorem eraseThis2remote_withLive (s : Other) (gid : Gid) (live : Gid → Bool) :
    (s.withLive live).eraseThis2remote gid = (s.eraseThis2remote gid).withLive live := by
  cases hgid : s.this2remoteGid2appid gid <;> simp [eraseThis2remote, withLive, hgid]

/-- `other_app::other_lua_send_ipc_package`: the connection a package to `appId` is sent on. -/
def otherLuaSendIpcPackage (s : Other) (appId : AppId) : Option Gid :=
  match s.appid2gid appId with
  | none => none
  | some gid => if s.live gid then some gid else none

/-! ## Consistency -/

/-- The maps agree with each other and with the connections. -/
structure Consistent (s : Other) : Prop where
  authenticated : ∀ gid appId, s.gid2appid gid = some appId ↔ s.appid2gid appId = some gid
  dialled : ∀ gid appId,
    s.this2remoteGid2appid gid = some appId ↔ s.this2remoteAppid2gid appId = some gid
  authenticatedLive : ∀ gid appId, s.gid2appid gid = some appId → s.live gid = true
  dialledLive : ∀ gid appId, s.this2remoteGid2appid gid = some appId → s.live gid = true
  acceptedLive : ∀ gid, s.remote2thisGid gid = true → s.live gid = true
  disjoint : ∀ gid appId, s.this2remoteGid2appid gid = some appId → s.remote2thisGid gid = false

namespace Consistent

variable {s : Other} {gid : Gid} {appId : AppId}

theorem init (appId : AppId) (live : Gid → Bool) : Consistent { appId := appId, live := live } :=
  ⟨by simp, by simp, by simp, by simp, by simp, by simp⟩

variable (h : s.Consistent)

include h

/-- A gid that has no connection is in no map. -/
theorem of_not_live (hlive : s.live gid = false) :
    s.gid2appid gid = none ∧ s.this2remoteGid2appid gid = none ∧ s.remote2thisGid gid = false := by
  refine ⟨?_, ?_, ?_⟩
  · by_contra hne
    obtain ⟨appId, hsome⟩ := Option.ne_none_iff_exists'.mp hne
    simp [h.authenticatedLive gid appId hsome] at hlive
  · by_contra hne
    obtain ⟨appId, hsome⟩ := Option.ne_none_iff_exists'.mp hne
    simp [h.dialledLive gid appId hsome] at hlive
  · cases hacc : s.remote2thisGid gid with
    | false => rfl
    | true => simp [h.acceptedLive gid hacc] at hlive

/-- More connections. -/
theorem mono {live : Gid → Bool} (hlive : ∀ gid, s.live gid = true → live gid = true) :
    (s.withLive live).Consistent :=
  ⟨h.authenticated, h.dialled, fun g a hg => hlive g (h.authenticatedLive g a hg),
    fun g a hg => hlive g (h.dialledLive g a hg), fun g hg => hlive g (h.acceptedLive g hg),
    h.disjoint⟩

theorem authenticate (hlive : s.live gid = true) (appId : AppId) :
    (s.authenticate appId gid).Consistent := by
  unfold Other.authenticate
  split
  · rename_i happ
    split
    · rename_i hgid
      refine { h with
        authenticated := inverse_insert h.authenticated hgid happ
        authenticatedLive := fun g a hg => ?_ }
      by_cases heq : g = gid
      · exact heq ▸ hlive
      · exact h.authenticatedLive g a (by simpa [heq] using hg)
    · exact h
  · exact h

theorem onRecvPackage (hlive : s.live gid = true) (p : IpcPackage π) :
    (s.onRecvPackage gid p).1.Consistent := by
  cases p with
  | handshake info =>
    cases info with
    | none => exact h
    | some appId => exact h.authenticate hlive appId
  | message p =>
    unfold Other.onRecvPackage
    simp only
    split
    · exact h
    · exact h

/-- A connection that closes is no longer authenticated. -/
theorem onCloseConnection (gid : Gid) :
    (s.onCloseConnection gid).Consistent ∧ (s.onCloseConnection gid).gid2appid gid = none := by
  unfold Other.onCloseConnection
  cases hgid : s.gid2appid gid with
  | none => exact ⟨h, hgid⟩
  | some appId =>
    refine ⟨{ h with
      authenticated := inverse_erase h.authenticated hgid
      authenticatedLive := fun g a hg => ?_ }, by simp⟩
    by_cases heq : g = gid
    · simp [heq] at hg
    · exact h.authenticatedLive g a (by simpa [heq] using hg)

/-- A connection that is there and in no map yet is dialled. -/
theorem addThis2remote (hlive : s.live gid = true) (hgid : s.this2remoteGid2appid gid = none)
    (hacc : s.remote2thisGid gid = false) (happ : s.this2remoteAppid2gid appId = none) :
    (s.addThis2remote appId gid).Consistent := by
  refine { h with
    dialled := inverse_insert h.dialled hgid happ
    dialledLive := fun g a hg => ?_
    disjoint := fun g a hg => ?_ }
  · by_cases heq : g = gid
    · exact heq ▸ hlive
    · exact h.dialledLive g a (by simpa [Other.addThis2remote, heq] using hg)
  · by_cases heq : g = gid
    · exact heq ▸ hacc
    · exact h.disjoint g a (by simpa [Other.addThis2remote, heq] using hg)

/-- A connection that is there and was not dialled is accepted. -/
theorem addRemote2this (hlive : s.live gid = true) (hgid : s.this2remoteGid2appid gid = none) :
    (s.addRemote2this gid).Consistent := by
  refine { h with acceptedLive := fun g hg => ?_, disjoint := fun g a hg => ?_ }
  · by_cases heq : g = gid
    · exact heq ▸ hlive
    · exact h.acceptedLive g (by simpa [Other.addRemote2this, heq] using hg)
  · by_cases heq : g = gid
    · simp [Other.addRemote2this, heq, hgid] at hg
    · exact (Function.update_of_ne heq _ _).trans (h.disjoint g a hg)

/-- A connection is gone, and the maps of dialled and accepted connections forget it. -/
theorem close (hauth : s.gid2appid gid = none) {live : Gid → Bool}
    (hlive : ∀ g, g ≠ gid → live g = s.live g) :
    (((s.eraseThis2remote gid).eraseRemote2this gid).withLive live).Consistent := by
  have hdialled : ∀ g a, (s.eraseThis2remote gid).this2remoteGid2appid g = some a →
      g ≠ gid ∧ s.this2remoteGid2appid g = some a := by
    intro g a hg
    unfold eraseThis2remote at hg
    cases hgid : s.this2remoteGid2appid gid with
    | none =>
      simp only [hgid] at hg
      refine ⟨?_, hg⟩
      rintro rfl
      simp [hgid] at hg
    | some appId =>
      simp only [hgid] at hg
      by_cases heq : g = gid
      · simp [heq] at hg
      · exact ⟨heq, by simpa [heq] using hg⟩
  have hsame : (s.eraseThis2remote gid).gid2appid = s.gid2appid ∧
      (s.eraseThis2remote gid).appid2gid = s.appid2gid ∧
      (s.eraseThis2remote gid).remote2thisGid = s.remote2thisGid := by
    unfold eraseThis2remote
    split <;> exact ⟨rfl, rfl, rfl⟩
  obtain ⟨hg2a, ha2g, hacc⟩ := hsame
  refine ⟨fun g a => ?_, ?_, fun g a hg => ?_, fun g a hg => ?_, fun g hg => ?_, fun g a hg => ?_⟩
  · show (s.eraseThis2remote gid).gid2appid g = _ ↔ (s.eraseThis2remote gid).appid2gid a = _
    rw [hg2a, ha2g]
    exact h.authenticated g a
  · show ∀ g a, (s.eraseThis2remote gid).this2remoteGid2appid g = some a ↔
      (s.eraseThis2remote gid).this2remoteAppid2gid a = some g
    unfold eraseThis2remote
    cases hgid : s.this2remoteGid2appid gid with
    | none => exact h.dialled
    | some appId => exact inverse_erase h.dialled hgid
  · change (s.eraseThis2remote gid).gid2appid g = some a at hg
    rw [hg2a] at hg
    have hne : g ≠ gid := by
      rintro rfl
      simp [hauth] at hg
    exact (hlive g hne).trans (h.authenticatedLive g a hg)
  · obtain ⟨hne, hg⟩ := hdialled g a hg
    exact (hlive g hne).trans (h.dialledLive g a hg)
  · change Function.update (s.eraseThis2remote gid).remote2thisGid gid false g = true at hg
    by_cases heq : g = gid
    · simp [heq] at hg
    · rw [Function.update_of_ne heq, hacc] at hg
      exact (hlive g heq).trans (h.acceptedLive g hg)
  · obtain ⟨hne, hg⟩ := hdialled g a hg
    show Function.update (s.eraseThis2remote gid).remote2thisGid gid false g = false
    rw [Function.update_of_ne hne, hacc]
    exact h.disjoint g a hg

/-- A connection that was accepted is forgotten. -/
theorem eraseRemote2this (gid : Gid) : (s.eraseRemote2this gid).Consistent := by
  have hold : ∀ g, Function.update s.remote2thisGid gid false g = true → s.remote2thisGid g = true := by
    intro g hg
    by_cases heq : g = gid
    · simp [heq] at hg
    · simpa [heq] using hg
  refine { h with
    acceptedLive := fun g hg => h.acceptedLive g (hold g hg)
    disjoint := fun g a hg => ?_ }
  by_contra hne
  have := hold g (Bool.not_eq_false _ ▸ hne)
  simp [h.disjoint g a hg] at this

end Consistent

end Other

end Avant.App
