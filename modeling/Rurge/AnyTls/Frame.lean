import Rurge.Lib.BigEndian

/-!
# Frames of AnyTLS

`command ‖ stream id ‖ length ‖ data`, written by `frame` and read off a stream of bytes one after
the other (`frames`).
-/

namespace Rurge

namespace AnyTls

open BigEndian

def WASTE : UInt8 := 0

def HEADER : ℕ := 7

/-- A frame as it is read. -/
structure Frame where
  command : UInt8
  stream : UInt32
  data : List UInt8
  deriving DecidableEq

/-- One frame. -/
def frame (command : UInt8) (stream : UInt32) (data : List UInt8) : List UInt8 :=
  command :: (u32 stream ++ (u16 (.ofNat data.length) ++ data))

/-- Command, stream id and data length. -/
def parse_header (header : List UInt8) : UInt8 × UInt32 × ℕ :=
  (header.getD 0 0, from_u32 ((header.drop 1).take 4), ofBytes ((header.drop 5).take 2))

/-- The frame at the start, and what follows it; nothing where the bytes end inside it. -/
def read_frame (bytes : List UInt8) : Option (Frame × List UInt8) :=
  if bytes.length < HEADER then none
  else
    let (command, sid, len) := parse_header (bytes.take HEADER)
    let data := bytes.drop HEADER
    if data.length < len then none else some (⟨command, sid, data.take len⟩, data.drop len)

theorem length_of_read_frame {bytes rest : List UInt8} {f : Frame}
    (h : read_frame bytes = some (f, rest)) : rest.length < bytes.length := by
  unfold read_frame at h
  simp only at h
  split_ifs at h with hshort hcut
  obtain ⟨-, rfl⟩ := Prod.mk.inj (Option.some.inj h)
  simp only [HEADER] at hshort
  simp only [List.length_drop, HEADER]
  omega

/-- The frames of a stream; nothing where it ends inside one. -/
def frames (bytes : List UInt8) : Option (List Frame) :=
  if bytes = [] then some []
  else
    match _h : read_frame bytes with
    | none => none
    | some (f, rest) => (frames rest).map (f :: ·)
termination_by bytes.length
decreasing_by exact length_of_read_frame ‹_›

end AnyTls

end Rurge
