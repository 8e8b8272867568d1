/-
The direct engine, which takes every count from the bit vector itself. It never refuses, and it is
what the four counts mean.
-/
import Wordwise.Engine.Basic

namespace Wordwise.Engine

def direct : Engine where
  trailing a := .ok a.ctz.toNat
  leading a := .ok a.clz.toNat
  log2 a := .ok (if a = 0 then -1 else a.toNat.log2)
  ones a := .ok a.cpop.toNat

variable {W : Width}

@[simp] theorem direct_trailing (a : Word W) : direct.trailing a = .ok a.ctz.toNat := rfl

@[simp] theorem direct_leading (a : Word W) : direct.leading a = .ok a.clz.toNat := rfl

@[simp] theorem direct_log2 (a : Word W) :
    direct.log2 a = .ok (if a = 0 then -1 else (a.toNat.log2 : Int)) := rfl

@[simp] theorem direct_ones (a : Word W) : direct.ones a = .ok a.cpop.toNat := rfl

end Wordwise.Engine
