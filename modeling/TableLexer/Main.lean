import TableLexer.CommandLine

/-!
# The program

Reads the arguments and, where they leave it to that, standard input; prints the answer.
-/

namespace TableLexer.CommandLine

partial def readAll (stream : IO.FS.Stream) (read : ByteArray) : IO ByteArray := do
  let chunk ← stream.read 65536
  if chunk.isEmpty then return read else readAll stream (read ++ chunk)

end TableLexer.CommandLine

open TableLexer

def main (args : List String) : IO UInt32 := do
  let stdout ← IO.getStdout
  let request := CommandLine.parse { color := ← stdout.isTty } args
  let stdin ←
    if request.wantsInput then
      let bytes ← CommandLine.readAll (← IO.getStdin) .empty
      pure (String.fromUTF8? bytes)
    else pure none
  let started ← IO.monoNanosNow
  let answer ← IO.lazyPure fun _ => CommandLine.answer stdin request
  let elapsed := (← IO.monoNanosNow) - started
  stdout.putStr (answer.out elapsed elapsed)
  (← IO.getStderr).putStr answer.err
  return answer.exitCode.toUInt32
