import InferenceGateway.Fc.Newcomer
import InferenceGateway.SpJson.Model
import InferenceGateway.Kv.Blocks
import InferenceGateway.PdTrie.Map
import InferenceGateway.Pd.Park
import InferenceGateway.Route.Lpm
import InferenceGateway.Kv.Sessions
import InferenceGateway.Relay.Pause
import InferenceGateway.Lb.Units
import InferenceGateway.Http.Framing
import InferenceGateway.Pools.Reclaim
import InferenceGateway.Security.Aggregate
import InferenceGateway.Security.Ipv6
import InferenceGateway.Ct.Scratch
import InferenceGateway.Fw.Rules
import InferenceGateway.Ct.Counts
import InferenceGateway.Fc.Return
import InferenceGateway.H2.Budget
import InferenceGateway.Cb.Pool
import InferenceGateway.Fc.Adapt
import InferenceGateway.Fc.Fair
import InferenceGateway.L7.Forward
import InferenceGateway.Http.Ends
import InferenceGateway.Http.HeadQueue
import InferenceGateway.L7.Policy
import InferenceGateway.Fc.Tombs
import InferenceGateway.Http.Ceiling
