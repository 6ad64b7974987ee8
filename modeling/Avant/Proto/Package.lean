import Avant.Proto.Frame

/-!
# Packages between threads

The messages of `protocol/proto_message_head.proto` and `protocol/proto_tunnel.proto` that the tunnels
carry, and what `src/proto/proto_util.h` does with them. Protobuf is a parameter: a `Protobuf` is a pair of
functions for each message, with what its documentation promises of them. `SerializeToString` may
fail (it does on messages of 2 GiB and more), so it is partial.

`ProtoCmd` is an open enumeration, as proto3 has them: any `int32`. Left out: `targetAllWorker`, which
is written and never read.

Result: `Protobuf.openPackage_frame`, that a tunnel package which can be packed comes out of its frame
unaltered.
-/

namespace Avant.Proto

open Avant.Lib

namespace ProtoCmd

def tunnelMain2workerNewClient : Int := 2

def tunnelPackage : Int := 3

def tunnelClientForwardMessage : Int := 4

end ProtoCmd

structure ProtoPackage where
  cmd : Int
  protocol : Bytes
  deriving DecidableEq

structure ProtoTunnelPackage where
  sourceTunnelsId : Int
  targetTunnelsId : List Int
  innerProtoPackage : ProtoPackage
  deriving DecidableEq

structure ProtoTunnelClientForwardMessage where
  sourceGid : Nat
  targetGid : List Nat
  innerProtoPackage : ProtoPackage
  deriving DecidableEq

/-- `SerializeToString` and `ParseFromString` of one message type. -/
structure Codec (α : Type) where
  serialize : α → Option Bytes
  parse : Bytes → Option α
  /-- parsing gives back what was serialised -/
  parse_serialize : ∀ {a b}, serialize a = some b → parse b = some a
  /-- a serialised message is shorter than 2 GiB -/
  length_lt : ∀ {a b}, serialize a = some b → b.length < 2 ^ 31

/-- The message types of the tunnels. -/
structure Protobuf where
  package : Codec ProtoPackage
  tunnel : Codec ProtoTunnelPackage
  clientForward : Codec ProtoTunnelClientForwardMessage
  /-- a field that is not zero takes up space -/
  package_ne_nil : ∀ {p b}, package.serialize p = some b → p.cmd ≠ 0 → b ≠ []

namespace Protobuf

variable (pb : Protobuf)

/-- The serialised package `pack_package(data, tunnelPackage, PROTO_CMD_TUNNEL_PACKAGE)` puts behind its
header. -/
def tunnelData (t : ProtoTunnelPackage) : Option Bytes :=
  (pb.tunnel.serialize t).bind fun body => pb.package.serialize ⟨ProtoCmd.tunnelPackage, body⟩

/-- `pack_package(data, tunnelPackage, PROTO_CMD_TUNNEL_PACKAGE)`. -/
def packTunnel (t : ProtoTunnelPackage) : Bytes := packPackage (pb.tunnelData t)

/-- Both serialisations of `pack_package` succeed. -/
def Packs (t : ProtoTunnelPackage) : Prop := (pb.tunnelData t).isSome = true

instance (t : ProtoTunnelPackage) : Decidable (pb.Packs t) :=
  inferInstanceAs (Decidable (_ = true))

/-- The start of `on_tunnel_process`, the same in every thread: the command is checked, and the tunnel
package is parsed. -/
def openPackage (p : ProtoPackage) : Option ProtoTunnelPackage :=
  if p.cmd ≠ ProtoCmd.tunnelPackage then none
  else pb.tunnel.parse p.protocol

/-- The payload of the frame of a tunnel package. -/
def frame (t : ProtoTunnelPackage) : Payload 8 :=
  match pb.tunnelData t with
  | none => ⟨[], by decide⟩
  | some b => if h : b.length < 256 ^ 8 then ⟨b, h⟩ else ⟨[], by decide⟩

variable {pb}

variable {t : ProtoTunnelPackage}

theorem Packs.exists_body (h : pb.Packs t) :
    ∃ body data, pb.tunnel.serialize t = some body ∧
      pb.package.serialize ⟨ProtoCmd.tunnelPackage, body⟩ = some data ∧ pb.tunnelData t = some data := by
  obtain ⟨data, hdata⟩ := Option.isSome_iff_exists.mp h
  have hbind := hdata
  rw [tunnelData, Option.bind_eq_some_iff] at hbind
  obtain ⟨body, hbody, hser⟩ := hbind
  exact ⟨body, data, hbody, hser, hdata⟩

theorem Packs.frame_eq {data : Bytes} (h : pb.tunnelData t = some data)
    (hlen : data.length < 2 ^ 31) : (pb.frame t).1 = data := by
  unfold frame
  rw [h]
  simp only
  rw [dif_pos (by omega)]

/-- What `pack_package` writes is a frame. -/
theorem packTunnel_eq (h : pb.Packs t) : pb.packTunnel t = frame64.enc (pb.frame t) := by
  obtain ⟨body, data, -, hser, hdata⟩ := h.exists_body
  have hframe := Packs.frame_eq hdata (pb.package.length_lt hser)
  show packPackage (pb.tunnelData t) = lenEnc 8 (pb.frame t)
  rw [hdata, lenEnc, hframe, packPackage]

theorem frame_length_lt (h : pb.Packs t) : (pb.frame t).1.length < 2 ^ 31 := by
  obtain ⟨body, data, -, hser, hdata⟩ := h.exists_body
  have hlen := pb.package.length_lt hser
  rwa [Packs.frame_eq hdata hlen]

/-- **A frame gives its tunnel package back.** -/
theorem openPackage_frame (h : pb.Packs t) :
    ∃ p, framePackage pb.package.parse (pb.frame t).1 = some p ∧ pb.openPackage p = some t := by
  obtain ⟨body, data, hbody, hser, hdata⟩ := h.exists_body
  refine ⟨⟨ProtoCmd.tunnelPackage, body⟩, ?_, ?_⟩
  · rw [Packs.frame_eq hdata (pb.package.length_lt hser), framePackage,
      if_neg (pb.package_ne_nil hser (show ProtoCmd.tunnelPackage ≠ 0 by decide))]
    exact pb.package.parse_serialize hser
  · rw [openPackage, if_neg (by simp)]
    exact pb.tunnel.parse_serialize hbody

end Protobuf

end Avant.Proto
