import EvmInterpreter.Core.Word
import EvmInterpreter.Core.Machine
import EvmInterpreter.Core.Exit
import EvmInterpreter.Core.ReturnValue
import EvmInterpreter.Core.Trace
import EvmInterpreter.Runtime.Basic
import EvmInterpreter.Runtime.Status
import EvmInterpreter.Runtime.Validate
import EvmInterpreter.Runtime.Simulation
import EvmInterpreter.Runtime.Handler
import EvmInterpreter.Legacy.CallStack
import EvmInterpreter.Legacy.Calls
