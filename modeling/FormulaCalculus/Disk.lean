import FormulaCalculus.Fault

/-!
# Disks

What a program can learn about files: the bytes at a path, and whether a file can be written there.
-/

namespace FormulaCalculus

structure Disk where
  read : String → Except Fault (List UInt8)
  /-- The fault that writing to a path meets, if any. -/
  writable : String → Except Fault Unit

end FormulaCalculus
