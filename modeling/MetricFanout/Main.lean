import MetricFanout.Config.Validate
/-!
# Command line

Checks a configuration file: says what is wrong with it, or how many backends it has. The exit
status tells the two apart.
-/

namespace MetricFanout

/-- What a command line asks for. -/
inductive Command where
  /-- Check the configuration in a file. -/
  | check (path : String)
  | usage
  deriving DecidableEq, Repr

namespace Command

/-- The file that is checked when none is named. -/
def defaultPath : String := "config.toml"

/-- The command of an argument list. -/
def ofArguments : List String → Command
  | [] => .check defaultPath
  | ["-c", path] => .check path
  | ["--config", path] => .check path
  | _ => .usage

/-- How the program is called. -/
def usageText : String := "usage: metric-fanout [--config FILE]"

/-- What is said about a configuration. -/
def verdict (path : String) : Except ConfigError Config → Except String String
  | .ok c =>
      let limits := if c.timeouts.wellOrdered then "" else ", time limits out of order"
      .ok (path ++ ": " ++ toString c.backends.length ++ " backends" ++ limits)
  | .error e => .error (path ++ ": " ++ e.message?.getD e.kind)

end Command

/-- The content of a file, if it can be read. -/
def readFile? (path : String) : IO (Option (List UInt8)) := do
  match ← (IO.FS.readBinFile path).toBaseIO with
  | .ok bytes => return some bytes.toList
  | .error _ => return none

end MetricFanout

open MetricFanout Program in
/-- Check the configuration that the command line names. -/
def main (args : List String) : IO UInt32 := do
  match Command.ofArguments args with
  | .usage =>
      IO.eprintln Command.usageText
      return 2
  | .check path =>
      match Command.verdict path (Config.load (← readFile? path)) with
      | .ok line =>
          IO.println line
          return 0
      | .error line =>
          IO.eprintln line
          return 1
