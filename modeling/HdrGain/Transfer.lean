import HdrGain.Scalar

namespace HdrGain.Transfer.Srgb

variable {α : Type} [Scalar α] [Elementary α]

def decode (signal : α) : α :=
  if signal ≤ 0.04045 then signal / 12.92
  else Elementary.pow ((signal + 0.055) / 1.055) 2.4

def encode (light : α) : α :=
  if light ≤ 0.0031308 then light * 12.92
  else 1.055 * Elementary.pow light (1.0 / 2.4) - 0.055

end HdrGain.Transfer.Srgb

namespace HdrGain.Transfer.Hlg

variable {α : Type} [Scalar α] [Elementary α]

def a : α := 0.17883277

def b : α := 0.28466892

def c : α := 0.55991073

def encode (light : α) : α :=
  if light ≤ 1.0 / 12.0 then Elementary.sqrt (3.0 * light)
  else a * Elementary.ln (12.0 * light - b) + c

def decode (signal : α) : α :=
  if signal ≤ 0.5 then signal * signal / 3.0
  else (Elementary.exp ((signal - c) / a) + b) / 12.0

end HdrGain.Transfer.Hlg

namespace HdrGain.Transfer.Pq

variable {α : Type} [Scalar α] [Elementary α]

def peak : α := 10000.0

def m1 : α := 2610.0 / 16384.0

def m2 : α := 2523.0 / 4096.0 * 128.0

def c1 : α := 3424.0 / 4096.0

def c2 : α := 2413.0 / 4096.0 * 32.0

def c3 : α := 2392.0 / 4096.0 * 32.0

/-- From luminance in nits to the signal. Below black is black. -/
def encode (luminance : α) : α :=
  let power := Elementary.pow (Scalar.max luminance 0.0 / peak) m1
  Elementary.pow ((c1 + c2 * power) / (1.0 + c3 * power)) m2

/-- From the signal to luminance in nits. -/
def decode (signal : α) : α :=
  if signal ≤ 0.0 then 0.0
  else
    let power := Elementary.pow signal (1.0 / m2)
    let above := Scalar.max (power - c1) 0.0
    peak * Elementary.pow (above / (c2 - c3 * power)) (1.0 / m1)

/-- The logarithmic stand-in for the inverse of `encode` that gain maps are made with. -/
def decodeLog (signal : α) : α :=
  -2.0754572 / Elementary.log2 (signal * peak)

end HdrGain.Transfer.Pq

namespace HdrGain

inductive HdrTransfer where
  | hlg
  | pq
deriving DecidableEq, Repr

namespace HdrTransfer

instance : Inhabited HdrTransfer := ⟨.hlg⟩

def name : HdrTransfer → String
  | .hlg => "HLG"
  | .pq => "PQ"

variable {α : Type} [Scalar α] [Elementary α]

def encode : HdrTransfer → α → α
  | .hlg => Transfer.Hlg.encode
  | .pq => Transfer.Pq.encode

def decode : HdrTransfer → α → α
  | .hlg => Transfer.Hlg.decode
  | .pq => Transfer.Pq.decodeLog

end HdrTransfer

end HdrGain
