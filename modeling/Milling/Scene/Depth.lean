import Milling.Binary64.Exact
import Milling.Program.Basic
/-!
Depth: colours by height, and the window of heights that is shown.
-/

namespace Milling

structure Rgb where
  r : UInt8
  g : UInt8
  b : UInt8
deriving DecidableEq, Inhabited

namespace Rgb

/-- Between two channels at the fraction `t`, to the nearest integer, a half up. A value that is no
number is 0. -/
def mix (a b : UInt8) (t : Float) : UInt8 :=
  UInt8.ofNat (min 255 (Binary64.nearestNat
    (Float.ofNat a.toNat + (Float.ofNat b.toNat - Float.ofNat a.toNat) * t)))

def blend (a b : Rgb) (t : Float) : Rgb :=
  ⟨mix a.r b.r t, mix a.g b.g t, mix a.b b.b t⟩

/-- A channel as two hexadecimal digits. -/
def channelHex (n : UInt8) : List Char :=
  [Nat.digitChar (n.toNat / 16), Nat.digitChar (n.toNat % 16)]

/-- The colour in the notation of style sheets. -/
def hex (c : Rgb) : String :=
  String.ofList ('#' :: (channelHex c.r ++ channelHex c.g ++ channelHex c.b))

end Rgb

namespace Depth

/-- The colour of the top, the next stops at a quarter, half and three quarters of the way down,
and the colour of the bottom. -/
def stop : Nat → Rgb
  | 0 => ⟨0x4d, 0xd0, 0xe1⟩
  | 1 => ⟨0x26, 0xa6, 0x9a⟩
  | 2 => ⟨0xff, 0xeb, 0x3b⟩
  | 3 => ⟨0xff, 0x98, 0x00⟩
  | _ => ⟨0xf4, 0x43, 0x36⟩

/-- The colour at the fraction `depth` of the way down, between the two stops around it. -/
def ramp (depth : Float) : Rgb :=
  let scaled := depth * 4.0
  let lower := min (Binary64.floorNat scaled) 3
  (stop lower).blend (stop (lower + 1)) (scaled - Float.ofNat lower)

/-- The colour of a height in a box. A flat box and a height that is not finite have the colour of
the top. -/
def colour (z : Float) (b : Box) : Rgb :=
  let range := b.max.z - b.min.z
  if range ≤ 0.0 || !z.isFinite then stop 0
  else ramp (Binary64.clamp ((b.max.z - z) / range) 0.0 1.0)

end Depth

structure DepthWindow where
  min : Float
  max : Float
deriving BEq, Inhabited

namespace DepthWindow

def full (b : Box) : DepthWindow := ⟨b.min.z, b.max.z⟩

def contains (w : DepthWindow) (z : Float) : Bool :=
  w.min ≤ z && z ≤ w.max

/-- Both ends of a segment are in the window. -/
def showsSegment (w : DepthWindow) (s : ToolPoint × ToolPoint) : Bool :=
  w.contains s.1.position.z && w.contains s.2.position.z

/-- The segments of a program with both ends in the window, each by the indices of its ends. -/
def visible (w : DepthWindow) (p : Program) : List (Nat × Nat) :=
  (p.segments.zipIdx.filter fun s => w.showsSegment s.1).map fun s => (s.2, s.2 + 1)

end DepthWindow

end Milling
