import Reflow.Number.Rounding
import Reflow.Text.Basic

/-!
What is printed about the times that a benchmark took.

Times are seconds and are printed in thousandths. The mean and the deviation are computed exactly
and rounded once.
-/

namespace Reflow.Benchmark

open Number (nearest roundedSqrt oneDecimal)

def total (times : List Rat) : Rat := times.foldl (· + ·) 0

def mean (times : List Rat) : Rat := nearest (total times / times.length)

def sorted (times : List Rat) : List Rat := times.mergeSort fun a b => decide (a ≤ b)

def median (times : List Rat) : Rat :=
  let s := sorted times
  let half := s.length / 2
  if s.length % 2 = 1 then s.getD half 0
  else nearest (nearest (s.getD (half - 1) 0 + s.getD half 0) / 2)

def deviation (times : List Rat) : Rat :=
  let n : Rat := times.length
  let squares := total (times.map fun x => x * x)
  let sum := total times
  roundedSqrt ((n * squares - sum * sum) / n / (n - 1))

def milliseconds (x : Rat) : String := oneDecimal (nearest (x * 1000)) ++ "ms"

def summary (name : String) (times : List Rat) : String :=
  match sorted times with
  | [] => name ++ ": No valid results\n"
  | least :: _ =>
    let row := fun (title : String) (x : Rat) => title ++ milliseconds x ++ "\n"
    "\n" ++ name ++ ":\n"
      ++ row "  Mean:   " (mean times)
      ++ row "  Median: " (median times)
      ++ row "  Min:    " least
      ++ row "  Max:    " ((sorted times).getLast?.getD 0)
      ++ if times.length > 1 then row "  StdDev: " (deviation times) else ""

end Reflow.Benchmark
