import StubJar.Session

/-!
# The command line

Reads the input, runs, writes the outputs. What is asked for, what is written
and how the program ends is decided elsewhere.
-/

namespace StubJar

/-- What the program says about itself. -/
def usage : String :=
  String.intercalate "\n"
    ["DEX stubber",
      "Replaces every method body in a DEX file with a minimal stub and writes a JAR",
      "",
      "Usage: dexstub [OPTIONS] <INPUT>",
      "",
      "  -o, --output <PATH>          Where to write the JAR",
      "      --dex                    Also write the stubbed DEX file next to the input",
      "      --class-version <MAJOR>  Class file major version of the classes in the JAR",
      "  -h, --help                   Print help",
      "  -V, --version                Print version"]

/-- Runs with some settings. -/
def runSettings (s : Settings) : IO Ending := do
  try
    let input ← IO.FS.readBinFile s.input
    match s.run input.toList with
    | .ok artifacts =>
      for (path, a) in artifacts do
        IO.FS.writeBinFile path ⟨a.bytes.toArray⟩
      return .success
    | .error fault =>
      IO.eprintln s!"Error: {fault.message}"
      return .failure
  catch e =>
    IO.eprintln s!"Error: I/O error: {e}"
    return .failure

/-- Does what a request asks for. -/
def perform : Request → IO Ending
  | .information => do
    IO.println usage
    return .success
  | .unusable => do
    IO.eprintln usage
    return .misuse
  | .run s => runSettings s

end StubJar

/-- Runs the program with its arguments; the exit status tells how it ended. -/
def main (arguments : List String) : IO UInt32 := do
  let ending ← StubJar.perform (StubJar.Request.ofArguments arguments)
  return UInt32.ofNat ending.code
