import ReversePolish.Action.Command
import ReversePolish.Action.Stack
import ReversePolish.Action.Variable

/-!
What each core word does.
-/

namespace ReversePolish

/-- A word is an operator, an action of the machine, or one of the three words that run
programs. -/
inductive Meaning where
  | operator (op : Operator)
  | action (a : Action Unit)
  | eval
  | call
  | tryCatch

def Word.meaning : Word → Meaning
  | .dup => .operator (.unary fun a => .results [a, a])
  | .drop => .operator (.unary fun _ => .results [])
  | .swap => .operator (.binary fun a b => .results [b, a])
  | .copyOver => .operator (.binary fun a b => .results [a, b, a])
  | .rot => .operator (.ternary fun a b c => .results [b, c, a])
  | .depth => .action Action.depth
  | .clear => .action Action.clear
  | .pick => .action Action.pick
  | .add => .operator .sum
  | .sub => .operator (.ofInts Arithmetic.difference)
  | .mul => .operator (.ofInts Arithmetic.product)
  | .div => .operator (.ofInts Arithmetic.quotient)
  | .mod => .operator (.ofInts Arithmetic.remainder)
  | .neg => .operator (.ofInt Arithmetic.negative)
  | .eq => .operator (.equality fun same => same)
  | .neq => .operator (.equality fun same => !same)
  | .lt => .operator (.ofOrder (· == .lt))
  | .gt => .operator (.ofOrder (· == .gt))
  | .le => .operator (.ofOrder (· != .gt))
  | .ge => .operator (.ofOrder (· != .lt))
  | .not => .operator .not
  | .and => .operator .and
  | .or => .operator .or
  | .list => .action Action.list
  | .size => .operator .size
  | .get => .operator .get
  | .put => .operator .put
  | .append => .operator .append
  | .insert => .operator .insert
  | .keys => .operator .keys
  | .range => .operator .range
  | .clone => .operator .clone
  | .toStr => .operator .text
  | .sto => .action Action.storeVariable
  | .rcl => .action Action.recallVariable
  | .purge => .action Action.purgeVariable
  | .lsto => .action Action.storeLocal
  | .lrcl => .action Action.recallLocal
  | .setNs => .action Action.setNamespace
  | .ns => .action Action.currentNamespace
  | .vars => .action Action.variableNames
  | .eval => .eval
  | .call => .call
  | .register => .action Action.registerProgram
  | .unregister => .action Action.unregister
  | .tryCatch => .tryCatch
  | .print => .action Action.print
  | .help => .action Action.help
  | .parse => .action Action.parse
  | .save => .action Action.save
  | .restore => .action Action.restore
  | .exit => .action Action.exit
  | .interrupt => .action Action.interrupt

end ReversePolish
