/-
Identifiers: texts of version 4 UUIDs.

* `Uuid.text` — the text of 128 given bits, with the version and variant put in;
* `Uuid.sequence` — a sequence of identifiers from a seed.
-/

namespace NestedStacks.Uuid

/-- The last `places` hexadecimal digits of a number, in lower case. -/
def hex (n : Nat) : Nat → String
  | 0 => ""
  | places + 1 => (hex (n / 16) places).push ((Nat.toDigits 16 (n % 16)).headD '0')

/-- The text of the identifier with these bits, six of which are fixed. -/
def text (bits : Nat) : String :=
  hex (bits >>> 96) 8 ++ "-" ++ hex (bits >>> 80) 4 ++ "-4" ++ hex (bits >>> 64) 3 ++ "-"
    ++ hex (8 + (bits >>> 60) % 4) 1 ++ hex (bits >>> 48) 3 ++ "-" ++ hex bits 12

/-- One step of mixing 64 bits so that close numbers become far ones. -/
def mix (x : UInt64) : UInt64 :=
  let x := (x ^^^ (x >>> 30)) * 0xbf58476d1ce4e5b9
  let x := (x ^^^ (x >>> 27)) * 0x94d049bb133111eb
  x ^^^ (x >>> 31)

/-- The `n`th identifier for a seed. -/
def sequence (seed : UInt64) (n : Nat) : String :=
  let first := mix (seed + 0x9e3779b97f4a7c15 * UInt64.ofNat (2 * n + 1))
  let second := mix (seed + 0x9e3779b97f4a7c15 * UInt64.ofNat (2 * n + 2))
  text (first.toNat <<< 64 + second.toNat)

end NestedStacks.Uuid
