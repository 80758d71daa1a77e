import Inkwell.Base.RecordFile
import Inkwell.Base.Version
import Inkwell.Ble.Bluez.Agent
import Inkwell.Ble.Bluez.Replica
import Inkwell.Ble.Winrt.References
import Inkwell.Codec.EspRom.Request
import Inkwell.Codec.Http.Account
import Inkwell.Codec.Http.Request
import Inkwell.Codec.Json.Find
import Inkwell.Codec.Json.Walk
import Inkwell.Codec.Mqtt.Buffer
import Inkwell.Codec.Png
import Inkwell.Codec.Zip.Archive
import Inkwell.Io.UsbStorage.Run
import Inkwell.Net.Fetch.Hops
import Inkwell.Net.Fetch.Length
import Inkwell.Net.Mqtt.Backoff
import Inkwell.Net.Mqtt.Backpressure
import Inkwell.Net.Mqtt.Bounds
import Inkwell.Net.Mqtt.Delivery
import Inkwell.Net.Mqtt.Exchange
import Inkwell.Net.Mqtt.Greeting
import Inkwell.Net.Mqtt.Keepalive
import Inkwell.Net.Mqtt.Target
import Inkwell.Net.Mqtt.Topics
import Inkwell.Net.Mqtt.Wire
import Inkwell.Net.Resolve.Answer
import Inkwell.Net.Stream.Verdicts
import Inkwell.Net.Tcp.Run
import Inkwell.Net.ZipFetch.Lifecycle
import Inkwell.Net.ZipFetch.Placement
import Inkwell.Runtime.Dispatch
import Inkwell.Runtime.Interest
import Inkwell.Runtime.Timer
