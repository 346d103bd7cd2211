import MpcVazirani.Accuracy
import MpcVazirani.Bench
import MpcVazirani.Capacity
import MpcVazirani.CoinSymmetry
import MpcVazirani.ConstLog
import MpcVazirani.Demo
import MpcVazirani.DimacsArithmetic
import MpcVazirani.DimacsErrors
import MpcVazirani.DimacsHeaders
import MpcVazirani.DimacsPolarities
import MpcVazirani.Estimators
import MpcVazirani.Exact
import MpcVazirani.GroundTruth
import MpcVazirani.Instrumentation
import MpcVazirani.Meet
import MpcVazirani.PepinCheck
import MpcVazirani.PipelineGuarantee
import MpcVazirani.RandomDnf
import MpcVazirani.TrialCount
import MpcVazirani.TrialLaw
import MpcVazirani.WriteDimacs
