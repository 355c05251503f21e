import RedisProxy.RoundTrip
import RedisProxy.StreamLines
import RedisProxy.HarmlessStreams
import RedisProxy.GrammaticalStreams
import RedisProxy.Library.Numerals
import RedisProxy.Library.TokenScanner
import RedisProxy.Delivery
import RedisProxy.Serializability
import RedisProxy.DispatchShape
import RedisProxy.Elements
import RedisProxy.CounterWrap
import RedisProxy.EncoderTypes
import RedisProxy.PartialWrites
import RedisProxy.SessionIds
import RedisProxy.Registrations
import RedisProxy.SelfDelimitingReplies
import RedisProxy.BufferRest
import RedisProxy.FreshStart
import RedisProxy.AnsweredOnce
import RedisProxy.Forwarding
import RedisProxy.Lifetimes
import RedisProxy.Quiescence
import RedisProxy.EventBatches
import RedisProxy.Linearizability
import RedisProxy.TimeEvents
import RedisProxy.TimerPasses
import RedisProxy.TimerRuns
import RedisProxy.TimerWaits
import RedisProxy.EventRounds
import RedisProxy.FailedAccepts
import RedisProxy.EventTraces
import RedisProxy.Survival
import RedisProxy.ClientOrder
import RedisProxy.SerialRuns
