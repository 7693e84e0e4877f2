import Reflow.Cli.Run

/-!
The command that only installs the pages for agents.
-/

namespace Reflow.Cli

open Arguments (Grammar)
open Files (Tree Path)

inductive InstallSwitch where
  | help
  | agentBase
deriving DecidableEq, Repr

def installGrammar : Grammar InstallSwitch where
  options := [⟨.help, ["-h".toList, "--help".toList], .flag⟩,
    ⟨.agentBase, ["--agent-base".toList], .text⟩]

/-- Run the command. Files that are left alone are no failure here. -/
def runInstallCommand (env : Environment) (t : Tree) (arguments : List Text) :
    Except Stop Outcome := do
  let p ← (installGrammar.parse arguments).mapError Stop.arguments
  let target := match p.text? .agentBase with
    | some base => .base (t.real env.cwd (Path.ofText base))
    | none => .project env.cwd Skill.Surface.all
  let outcome ← installAt env t target
  return { outcome with code := if outcome.err.isEmpty then 0 else outcome.code }

end Reflow.Cli
