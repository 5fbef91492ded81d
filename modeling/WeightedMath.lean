import WeightedMath.Machine
import WeightedMath.Wide
import WeightedMath.Horner
import WeightedMath.LogExp
import WeightedMath.Sensitivity
import WeightedMath.Fixed
import WeightedMath.Ln
import WeightedMath.LnError
import WeightedMath.Exp
import WeightedMath.ExpError
import WeightedMath.Pow
import WeightedMath.PowError
import WeightedMath.Weighted
import WeightedMath.Curve
import WeightedMath.ExactIn
import WeightedMath.ExactOut
import WeightedMath.Pool
import WeightedMath.Monotone
import WeightedMath.Elementary
import WeightedMath.Accuracy
import WeightedMath.Headroom
import WeightedMath.LittleEndian
import WeightedMath.Zkvm
import WeightedMath.Grader
import WeightedMath.Referee
import WeightedMath.Harness
import WeightedMath.Gates
import WeightedMath.WrapperGate
import WeightedMath.EconomicGates
import WeightedMath.OverflowEnvelope
import WeightedMath.Routes
import WeightedMath.Runner
import WeightedMath.Oracle
import WeightedMath.OracleTrades
