import Blockwork.Text.Quoted

/-! # Colours

A colour is a word of three channels of eight bits, red above green above blue.
-/

set_option autoImplicit false

namespace Blockwork

structure Color where
  word : UInt32
  deriving DecidableEq, Repr

namespace Color

def white : Color := ⟨0xffffff⟩

def black : Color := ⟨0x000000⟩

def red (c : Color) : Nat := c.word.toNat / 0x10000 % 0x100

def green (c : Color) : Nat := c.word.toNat / 0x100 % 0x100

def blue (c : Color) : Nat := c.word.toNat % 0x100

def toHex (c : Color) : String := "#" ++ Text.hex 6 (c.word.toNat % 0x1000000)

def mixed (a b : Nat) : Nat := (a * b + 127) / 255

def tinted (c tint : Color) : Color :=
  ⟨UInt32.ofNat (mixed c.red tint.red * 0x10000 + mixed c.green tint.green * 0x100 +
    mixed c.blue tint.blue)⟩

end Color

end Blockwork
