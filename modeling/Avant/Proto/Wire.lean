import Avant.Lib.Wire
import Avant.Proto.Package

/-!
# The packages on the wire

`proto3`, the `Protobuf` that `protoc` makes of `protocol/proto_message_head.proto` and
`protocol/proto_tunnel.proto`: an `int32` or an enumeration is a varint of its 64-bit two's
complement, `repeated` numbers are packed, and `SerializeToString` refuses messages of 2 GiB and more.
-/

namespace Avant.Proto

open Avant.Lib

/-- The 64-bit two's complement of an `int32`, as a varint field carries it. -/
def ofInt32 (i : Int) : Nat := (i % 2 ^ 64).toNat

@[inherit_doc ofInt32]
def toInt (n : Nat) : Int := if n < 2 ^ 63 then n else n - 2 ^ 64

def isInt32 (i : Int) : Bool := -2 ^ 31 ≤ i && i < 2 ^ 31

theorem ofInt32_lt (i : Int) : ofInt32 i < 2 ^ 64 := by
  unfold ofInt32
  omega

theorem toInt_ofInt32 {i : Int} (h : isInt32 i = true) : toInt (ofInt32 i) = i := by
  rw [isInt32, Bool.and_eq_true, decide_eq_true_eq, decide_eq_true_eq] at h
  unfold toInt ofInt32
  split <;> omega

/-- `SerializeToString` refuses what an `int` cannot count. -/
def limited (b : Bytes) : Option Bytes := if b.length < 2 ^ 31 then some b else none

variable {b : Bytes} {p : ProtoPackage}

theorem limited_eq_some {b' : Bytes} : limited b = some b' ↔ b' = b ∧ b.length < 2 ^ 31 := by
  unfold limited
  split
  · rename_i h
    rw [Option.some.injEq, eq_comm, and_iff_left h]
  · rename_i h
    exact ⟨fun hc => absurd hc (by simp), fun hc => absurd hc.2 h⟩

/-! ## The messages -/

def packageBytes (p : ProtoPackage) : Bytes :=
  varintField 0x08 (ofInt32 p.cmd) ++ bytesField 0x12 p.protocol

def serializePackage (p : ProtoPackage) : Option Bytes :=
  if isInt32 p.cmd then limited (packageBytes p) else none

def parsePackage (bs : Bytes) : Option ProtoPackage :=
  (readVarintField 0x08 bs).bind fun c =>
    (readBytesField 0x12 c.2).bind fun p =>
      if p.2 = [] then some ⟨toInt c.1, p.1⟩ else none

/-- The two messages that carry a package from a source to targets differ in the number of the
field with the package. -/
def serializeAddressed (innerTag : UInt8) (source : Nat) (target : List Nat) (inner : ProtoPackage) :
    Option Bytes :=
  (serializePackage inner).bind fun i =>
    limited (varintField 0x08 source ++ (packedField 0x12 target ++ lenField innerTag i))

@[inherit_doc serializeAddressed]
def parseAddressed (innerTag : UInt8) (bs : Bytes) : Option (Nat × List Nat × ProtoPackage) :=
  (readVarintField 0x08 bs).bind fun s =>
    (readPackedField 0x12 s.2).bind fun t =>
      (readBytesField innerTag t.2).bind fun i =>
        (parsePackage i.1).bind fun inner =>
          if i.2 = [] then some (s.1, t.1, inner) else none

def serializeTunnel (t : ProtoTunnelPackage) : Option Bytes :=
  if isInt32 t.sourceTunnelsId && t.targetTunnelsId.all isInt32 then
    serializeAddressed 0x2A (ofInt32 t.sourceTunnelsId) (t.targetTunnelsId.map ofInt32)
      t.innerProtoPackage
  else none

def parseTunnel (bs : Bytes) : Option ProtoTunnelPackage :=
  (parseAddressed 0x2A bs).map fun m => ⟨toInt m.1, m.2.1.map toInt, m.2.2⟩

def serializeClientForward (m : ProtoTunnelClientForwardMessage) : Option Bytes :=
  if m.sourceGid < 2 ^ 64 && m.targetGid.all (· < 2 ^ 64) then
    serializeAddressed 0x1A m.sourceGid m.targetGid m.innerProtoPackage
  else none

def parseClientForward (bs : Bytes) : Option ProtoTunnelClientForwardMessage :=
  (parseAddressed 0x1A bs).map fun m => ⟨m.1, m.2.1, m.2.2⟩

/-! ## Round trips -/

theorem length_lt_of_bytesField (tag : UInt8) {n : Nat} (h : (bytesField tag b).length < n) :
    b.length < n := by
  unfold bytesField at h
  split at h
  · rename_i h0
    rwa [h0]
  · simp only [lenField, List.length_cons, List.length_append] at h
    omega

theorem parsePackage_serializePackage (h : serializePackage p = some b) :
    parsePackage b = some p := by
  unfold serializePackage at h
  split at h
  · rename_i hcmd
    obtain ⟨rfl, hlen⟩ := limited_eq_some.mp h
    have hbody : p.protocol.length < 2 ^ 64 := by
      rw [packageBytes, List.length_append] at hlen
      exact length_lt_of_bytesField 0x12 (by omega)
    have hc := readVarintField_varintField 0x08 (bytesField 0x12 p.protocol ++ [])
      (ofInt32_lt p.cmd) (head?_bytesField_append (by decide) (by simp))
    have hp := readBytesField_bytesField 0x12 [] hbody (by simp)
    rw [List.append_nil] at hc hp
    simp [parsePackage, packageBytes, hc, hp, toInt_ofInt32 hcmd]
  · simp at h

theorem serializePackage_length (h : serializePackage p = some b) : b.length < 2 ^ 31 := by
  unfold serializePackage at h
  split at h
  · obtain ⟨rfl, hlen⟩ := limited_eq_some.mp h
    exact hlen
  · simp at h

theorem parseAddressed_serializeAddressed {innerTag : UInt8} {source : Nat} {target : List Nat}
    {inner : ProtoPackage} (htag : innerTag ≠ 0x08 ∧ innerTag ≠ 0x12) (hsource : source < 2 ^ 64)
    (htarget : ∀ n ∈ target, n < 2 ^ 64)
    (h : serializeAddressed innerTag source target inner = some b) :
    parseAddressed innerTag b = some (source, target, inner) := by
  rw [serializeAddressed, Option.bind_eq_some_iff] at h
  obtain ⟨i, hi, h⟩ := h
  obtain ⟨rfl, hlen⟩ := limited_eq_some.mp h
  have hinner : i.length < 2 ^ 64 := lt_trans (serializePackage_length hi) (by decide)
  have hpacked : (packedField 0x12 target).length < 2 ^ 64 := by
    rw [List.length_append, List.length_append] at hlen
    omega
  have hhead : ∀ tag, innerTag ≠ tag → (lenField innerTag i).head? ≠ some tag := by
    intro tag ht
    simpa [lenField] using ht
  have hs := readVarintField_varintField 0x08 (packedField 0x12 target ++ lenField innerTag i) hsource
    (head?_bytesField_append (by decide) (hhead _ htag.1))
  have ht := readPackedField_packedField 0x12 (lenField innerTag i) htarget hpacked (hhead _ htag.2)
  have hb := readBytesField_lenField innerTag [] hinner
  rw [List.append_nil] at hb
  simp [parseAddressed, hs, ht, hb, parsePackage_serializePackage hi]

theorem serializeAddressed_length {innerTag : UInt8} {source : Nat} {target : List Nat}
    {inner : ProtoPackage} (h : serializeAddressed innerTag source target inner = some b) :
    b.length < 2 ^ 31 := by
  rw [serializeAddressed, Option.bind_eq_some_iff] at h
  obtain ⟨i, -, h⟩ := h
  obtain ⟨rfl, hlen⟩ := limited_eq_some.mp h
  exact hlen

theorem serializePackage_ne_nil (h : serializePackage p = some b) (hcmd : p.cmd ≠ 0) : b ≠ [] := by
  unfold serializePackage at h
  split at h
  · rename_i hint
    obtain ⟨rfl, -⟩ := limited_eq_some.mp h
    have hne : ofInt32 p.cmd ≠ 0 := by
      intro h0
      have := toInt_ofInt32 hint
      rw [h0] at this
      exact hcmd this.symm
    simp [packageBytes, varintField, hne]
  · simp at h

theorem serializeTunnel_eq_some {t : ProtoTunnelPackage} (h : serializeTunnel t = some b) :
    isInt32 t.sourceTunnelsId = true ∧ (∀ i ∈ t.targetTunnelsId, isInt32 i = true) ∧
      serializeAddressed 0x2A (ofInt32 t.sourceTunnelsId) (t.targetTunnelsId.map ofInt32)
        t.innerProtoPackage = some b := by
  unfold serializeTunnel at h
  split at h
  · rename_i hint
    rw [Bool.and_eq_true, List.all_eq_true] at hint
    exact ⟨hint.1, hint.2, h⟩
  · simp at h

theorem parseTunnel_serializeTunnel {t : ProtoTunnelPackage} (h : serializeTunnel t = some b) :
    parseTunnel b = some t := by
  obtain ⟨hsource, htarget, hser⟩ := serializeTunnel_eq_some h
  have hback : (t.targetTunnelsId.map ofInt32).map toInt = t.targetTunnelsId := by
    rw [List.map_map]
    calc t.targetTunnelsId.map (toInt ∘ ofInt32)
        = t.targetTunnelsId.map id :=
          List.map_congr_left fun i hi => toInt_ofInt32 (htarget i hi)
      _ = t.targetTunnelsId := List.map_id _
  have hlt : ∀ n ∈ t.targetTunnelsId.map ofInt32, n < 2 ^ 64 := by
    intro n hn
    obtain ⟨i, -, rfl⟩ := List.mem_map.mp hn
    exact ofInt32_lt i
  rw [parseTunnel, parseAddressed_serializeAddressed (by decide) (ofInt32_lt _) hlt hser,
    Option.map_some]
  simp only [toInt_ofInt32 hsource, hback]

theorem serializeClientForward_eq_some {m : ProtoTunnelClientForwardMessage}
    (h : serializeClientForward m = some b) :
    m.sourceGid < 2 ^ 64 ∧ (∀ n ∈ m.targetGid, n < 2 ^ 64) ∧
      serializeAddressed 0x1A m.sourceGid m.targetGid m.innerProtoPackage = some b := by
  unfold serializeClientForward at h
  split at h
  · rename_i hint
    rw [Bool.and_eq_true, List.all_eq_true, decide_eq_true_eq] at hint
    exact ⟨hint.1, fun n hn => of_decide_eq_true (hint.2 n hn), h⟩
  · simp at h

theorem parseClientForward_serializeClientForward {m : ProtoTunnelClientForwardMessage}
    (h : serializeClientForward m = some b) : parseClientForward b = some m := by
  obtain ⟨hsource, htarget, hser⟩ := serializeClientForward_eq_some h
  rw [parseClientForward, parseAddressed_serializeAddressed (by decide) hsource htarget hser,
    Option.map_some]

/-- The messages of the tunnels in the format of proto3. -/
def proto3 : Protobuf where
  package := ⟨serializePackage, parsePackage, parsePackage_serializePackage, serializePackage_length⟩
  tunnel := ⟨serializeTunnel, parseTunnel, parseTunnel_serializeTunnel,
    fun h => serializeAddressed_length (serializeTunnel_eq_some h).2.2⟩
  clientForward := ⟨serializeClientForward, parseClientForward,
    parseClientForward_serializeClientForward,
    fun h => serializeAddressed_length (serializeClientForward_eq_some h).2.2⟩
  package_ne_nil := serializePackage_ne_nil

end Avant.Proto
