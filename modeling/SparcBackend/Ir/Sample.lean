import SparcBackend.Ir.Program
import SparcBackend.Ir.Supply

/-!
Four small programs in tree form, for trying the backend without a front end.
-/
namespace SparcBackend.Sample

/-- The factorial of ten, computed by a recursive method. -/
def factorial : Program :=
  let (thenLabel,labels) := ({} : LabelSupply).create ["if","then"]
  let (elseLabel,labels) := labels.create ["if","else"]
  let (endLabel,_) := labels.create ["if","end"]
  let number := Expression.named "%i1"
  let result := Expression.named "num_aux"
  let recursion := Expression.callNamed "Fac$ComputeFac"
    [.named "%i0",.binary .minus number (.constant 1)]
  { procedures := [
      { className := "Factorial",methodName := "main",isEntry := true
        body := [
          .discard (.callNamed "printInt" [
            .callNamed "Fac$ComputeFac" [.callNamed "allocateObject" [.constant 0],.constant 10]])] },
      { className := "Fac",methodName := "ComputeFac"
        body := [
          .branch .lt number (.constant 1) thenLabel elseLabel,
          .label thenLabel,
          .move result (.constant 1),
          .jump endLabel,
          .label elseLabel,
          .move result (.binary .mul number recursion),
          .label endLabel,
          .move (.named "%i0") result] }] }

/-- Returns the first argument plus zero. -/
def addZero : Program :=
  { procedures := [
      { className := "Test",methodName := "addZero"
        body := [.move (.named "%i0") (.binary .plus (.named "%i1") (.constant 0))] }] }

/-- Prints a number and throws the result of the call away. -/
def discardCall : Program :=
  { procedures := [
      { className := "Test",methodName := "main",isEntry := true
        body := [.discard (.callNamed "printInt" [.constant 42])] }] }

/-- Passes the first argument through a word on the stack. -/
def locals : Program :=
  let slot := Expression.memory (.binary .minus (.named "%fp") (.constant 4))
  { procedures := [
      { className := "Test",methodName := "spill",locals := 1
        body := [.move slot (.named "%i1"),.move (.named "%i0") slot] }] }

def all : List (String × Program) :=
  [("factorial",factorial),("add-zero",addZero),("discard-call",discardCall),("locals",locals)]

def find? (name : String) : Option Program :=
  all.lookup name

end SparcBackend.Sample
