import Mathlib.Tactic

/-!
# Tensor types of a GGUF file

A type's tag in the file, how many weights a block of it holds and in how many bytes.
-/

namespace Grim.Format

inductive GgufDType
  | f32 | f16 | q4_0 | q4_1 | q5_0 | q5_1 | q8_0 | q8_1 | q2K | q3K | q4K | q5K | q6K | q8K
  | iq2_xxs | iq2_xs | iq3_xxs | iq1_s | iq4_nl | iq3_s | iq2_s | iq4_xs | i8 | i16 | i32 | i64
  | f64 | iq1_m | bf16 | tq1_0 | tq2_0 | mxfp4 | q4_2 | q8_1Hx | nvfp4 | q1_0 | q2_0
  | gsqRco3p5 | pq2_0 | ptq1_0 | whiteCrow | raven | whiteRaven | greyRaven | forestRaven
  | greyRavenHw
deriving DecidableEq

namespace GgufDType

/-- The value of the enumeration, which `dtype as u32` writes. -/
def discriminant : GgufDType → UInt32
  | .f32 => 0
  | .f16 => 1
  | .q4_0 => 2
  | .q4_1 => 3
  | .q5_0 => 6
  | .q5_1 => 7
  | .q8_0 => 8
  | .q8_1 => 9
  | .q2K => 10
  | .q3K => 11
  | .q4K => 12
  | .q5K => 13
  | .q6K => 14
  | .q8K => 15
  | .iq2_xxs => 16
  | .iq2_xs => 17
  | .iq3_xxs => 18
  | .iq1_s => 19
  | .iq4_nl => 20
  | .iq3_s => 21
  | .iq2_s => 22
  | .iq4_xs => 23
  | .i8 => 24
  | .i16 => 25
  | .i32 => 26
  | .i64 => 27
  | .f64 => 28
  | .iq1_m => 29
  | .bf16 => 30
  | .tq1_0 => 34
  | .tq2_0 => 35
  | .mxfp4 => 39
  | .q4_2 => 79
  | .q8_1Hx => 80
  | .nvfp4 => 40
  | .q1_0 => 41
  | .q2_0 => 42
  | .gsqRco3p5 => 81
  | .pq2_0 => 142
  | .ptq1_0 => 143
  | .whiteCrow => 660
  | .raven => 669
  | .whiteRaven => 670
  | .greyRaven => 671
  | .forestRaven => 672
  | .greyRavenHw => 673

def tag : GgufDType → UInt32
  | .f32 => 0
  | .f16 => 1
  | .q4_0 => 2
  | .q4_1 => 3
  | .q5_0 => 6
  | .q5_1 => 7
  | .q8_0 => 8
  | .q8_1 => 9
  | .q2K => 10
  | .q3K => 11
  | .q4K => 12
  | .q5K => 13
  | .q6K => 14
  | .q8K => 15
  | .iq2_xxs => 16
  | .iq2_xs => 17
  | .iq3_xxs => 18
  | .iq1_s => 19
  | .iq4_nl => 20
  | .iq3_s => 21
  | .iq2_s => 22
  | .iq4_xs => 23
  | .i8 => 24
  | .i16 => 25
  | .i32 => 26
  | .i64 => 27
  | .f64 => 28
  | .iq1_m => 29
  | .bf16 => 30
  | .tq1_0 => 34
  | .tq2_0 => 35
  | .mxfp4 => 39
  | .q4_2 => 79
  | .q8_1Hx => 80
  | .nvfp4 => 40
  | .q1_0 => 41
  | .q2_0 => 42
  | .gsqRco3p5 => 81
  | .pq2_0 => 142
  | .ptq1_0 => 143
  | .whiteCrow => 660
  | .raven => 669
  | .whiteRaven => 670
  | .greyRaven => 671
  | .forestRaven => 672
  | .greyRavenHw => 673

def fromTag (tag : UInt32) : Option GgufDType :=
  match tag.toNat with
  | 0 => some .f32
  | 1 => some .f16
  | 2 => some .q4_0
  | 3 => some .q4_1
  | 6 => some .q5_0
  | 7 => some .q5_1
  | 8 => some .q8_0
  | 9 => some .q8_1
  | 10 => some .q2K
  | 11 => some .q3K
  | 12 => some .q4K
  | 13 => some .q5K
  | 14 => some .q6K
  | 15 => some .q8K
  | 16 => some .iq2_xxs
  | 17 => some .iq2_xs
  | 18 => some .iq3_xxs
  | 19 => some .iq1_s
  | 20 => some .iq4_nl
  | 21 => some .iq3_s
  | 22 => some .iq2_s
  | 23 => some .iq4_xs
  | 24 => some .i8
  | 25 => some .i16
  | 26 => some .i32
  | 27 => some .i64
  | 28 => some .f64
  | 29 => some .iq1_m
  | 30 => some .bf16
  | 34 => some .tq1_0
  | 35 => some .tq2_0
  | 39 => some .mxfp4
  | 79 => some .q4_2
  | 80 => some .q8_1Hx
  | 40 => some .nvfp4
  | 41 => some .q1_0
  | 42 => some .q2_0
  | 81 => some .gsqRco3p5
  | 142 => some .pq2_0
  | 143 => some .ptq1_0
  | 660 => some .whiteCrow
  | 669 => some .raven
  | 670 => some .whiteRaven
  | 671 => some .greyRaven
  | 672 => some .forestRaven
  | 673 => some .greyRavenHw
  | _ => none

def blockSize : GgufDType → UInt64
  | .f32 | .f16 | .bf16 | .f64 | .i8 | .i16 | .i32 | .i64 | .q4_2 | .q8_1Hx => 1
  | .q2K | .q3K | .q4K | .q5K | .q6K | .q8K | .iq4_nl | .iq4_xs | .iq3_xxs | .iq3_s | .iq2_xxs
  | .iq2_xs | .iq2_s | .iq1_s | .iq1_m | .mxfp4 | .nvfp4 => 256
  | .q2_0 | .gsqRco3p5 => 64
  | .pq2_0 => 128
  | .whiteCrow => 128
  | .raven | .whiteRaven | .forestRaven => 1
  | .greyRaven => 32
  | .greyRavenHw => 512
  | .ptq1_0 => 128
  | _ => 32

def typeSizePerBlock : GgufDType → UInt64
  | .f32 => 4
  | .f16 | .bf16 => 2
  | .i8 => 1
  | .i16 => 2
  | .i32 => 4
  | .i64 => 8
  | .f64 => 8
  | .q4_0 => 2 + 32 / 2
  | .q4_1 => 2 + 2 + 32 / 2
  | .q4_2 => 0
  | .q5_0 => 2 + 4 + 32 / 2
  | .q5_1 => 2 + 2 + 4 + 32 / 2
  | .q8_0 => 2 + 32
  | .q8_1 => 2 + 2 + 32
  | .q2K => 84
  | .q3K => 110
  | .q4K => 144
  | .q5K => 176
  | .q6K => 210
  | .q8K => 292
  | .iq4_nl => 144
  | .iq4_xs => 136
  | .iq3_xxs => 98
  | .iq3_s => 110
  | .iq2_xxs => 66
  | .iq2_xs => 74
  | .iq2_s => 82
  | .iq1_s => 50
  | .iq1_m => 56
  | .mxfp4 => 136
  | .nvfp4 => 16 + 128
  | .q2_0 | .gsqRco3p5 => 18
  | .pq2_0 => 34
  | .ptq1_0 => 28
  | .whiteCrow => 64 + 2 + 1
  | .raven | .whiteRaven | .forestRaven => 1
  | .greyRaven => 16 + 12
  | .greyRavenHw => 256 + 4
  | _ => 0

theorem discriminant_eq_tag (d : GgufDType) : d.discriminant = d.tag := by cases d <;> rfl

theorem fromTag_tag (d : GgufDType) : fromTag d.tag = some d := by cases d <;> rfl

theorem blockSize_ne_zero (d : GgufDType) : d.blockSize ≠ 0 := by cases d <;> decide

end GgufDType

def checkedMul (a b : UInt64) : Option UInt64 :=
  if a.toNat * b.toNat < 2 ^ 64 then some (a * b) else none

def checkedAdd (a b : UInt64) : Option UInt64 :=
  if a.toNat + b.toNat < 2 ^ 64 then some (a + b) else none

def dimProduct (dims : List UInt64) : Option UInt64 := dims.foldlM checkedMul 1

def expectedTensorBytes (dtype : GgufDType) (dims : List UInt64) : Option UInt64 := do
  let block := dtype.blockSize
  let tsize := dtype.typeSizePerBlock
  if block = 0 ∨ tsize = 0 then none
  let params ← dimProduct dims
  if block = 1 then checkedMul params tsize
  else (checkedMul params tsize).map (· / block)

end Grim.Format
