import Sigil.CommandLine.Run

/-!
# The program

Passes the arguments to the command and prints what it leaves behind.
-/

open Sigil

/-- The width of the terminal that the program prints to, if it prints to one that has a width. -/
def terminalWidth : IO (Option Listing.Width) := do
  if ← (← IO.getStdout).isTty then
    return (← IO.getEnv "COLUMNS").bind String.toNat? |>.map .columns
  else return none

def main (args : List String) : IO UInt32 := do
  let outcome := CommandLine.run (args.map Text.ofString) (← terminalWidth)
  (← IO.getStdout).putStr outcome.stdout.toString
  (← IO.getStderr).putStr outcome.stderr.toString
  return outcome.exitCode.toUInt32
