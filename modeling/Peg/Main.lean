import Peg.Samples

/-! The command line: `arithmetic` runs the sample of that name, and `json` reads the texts that
follow it. -/
namespace Peg

/-- Prints what a sample prints by itself; it ends well unless something was raised. -/
def runSample (parts : List Samples.Part) : IO UInt32 := do
  let world := Samples.world (some Catalogue.longest)
  let ((answer, lines), _) := Samples.perform world parts {}
  lines.forM fun line => IO.println (String.ofList line)
  match answer with
  | .value _ => pure 0
  | .raised fault =>
    IO.eprintln (String.ofList fault.message)
    pure 1
  | .exhausted =>
    IO.eprintln "nested too deep"
    pure 1

end Peg

def main (arguments : List String) : IO UInt32 := do
  match arguments with
  | "arithmetic" :: _ => Peg.runSample Peg.Samples.Arithmetic.report
  | "json" :: texts => Peg.runSample (Peg.Samples.Json.report (texts.map String.toList))
  | _ =>
    IO.eprintln "usage: arithmetic | json [text ...]"
    pure 2
