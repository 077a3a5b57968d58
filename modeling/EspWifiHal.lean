import EspWifiHal.Lib.Linked
import EspWifiHal.Lib.Trace
import EspWifiHal.Lib.Loop
import EspWifiHal.Lib.Register
import EspWifiHal.Lib.Words
import EspWifiHal.Lib.Memory
import EspWifiHal.Lib.Search
import EspWifiHal.Lib.Signed
import EspWifiHal.Lib.Fields
import EspWifiHal.Lib.Cells
import EspWifiHal.Lib.Handles
import EspWifiHal.Lib.Interleave
import EspWifiHal.Dma.Descriptor
import EspWifiHal.Dma.Queue
import EspWifiHal.Dma.Fifo
import EspWifiHal.Dma.Ownership
import EspWifiHal.Dma.Restart
import EspWifiHal.Dma.Esp32
import EspWifiHal.Sync
import EspWifiHal.Tx.Params
import EspWifiHal.Tx.Prepare
import EspWifiHal.Tx.Retry
import EspWifiHal.Tx.Contention
import EspWifiHal.Tx.Oneshot
import EspWifiHal.Tx.Rates
import EspWifiHal.Tx.Slot
import EspWifiHal.Tx.FrameLength
import EspWifiHal.Tx.Completion
import EspWifiHal.Tx.Rejection
import EspWifiHal.Tx.Sequence
import EspWifiHal.Tx.Window
import EspWifiHal.Tx.HrDsss
import EspWifiHal.Tx.OfdmBased
import EspWifiHal.Tx.PowerControl
import EspWifiHal.Rx.Length
import EspWifiHal.Rx.Receive
import EspWifiHal.Rx.Filter
import EspWifiHal.Rx.Rate
import EspWifiHal.Tsf.Timer
import EspWifiHal.Crypto.Cipher
import EspWifiHal.Crypto.KeySlot
import EspWifiHal.Crypto.Install
import EspWifiHal.Crypto.Policy
import EspWifiHal.Phy.Init
import EspWifiHal.Phy.TxPower
import EspWifiHal.Phy.Calibration
import EspWifiHal.Phy.Register
import EspWifiHal.Phy.RfPll
import EspWifiHal.Phy.FreqMemory
import EspWifiHal.Phy.GainLookup
import EspWifiHal.Phy.GainTables
import EspWifiHal.Phy.CapSearch
import EspWifiHal.Phy.Attenuation
import EspWifiHal.Phy.TxIq
import EspWifiHal.Phy.RxIq
import EspWifiHal.Phy.I2cTable
import EspWifiHal.Phy.DcSearch
import EspWifiHal.Phy.DcTable
import EspWifiHal.Phy.RxGainMemory
import EspWifiHal.Phy.CheckValue
import EspWifiHal.Phy.Guards
import EspWifiHal.Phy.Temperature
import EspWifiHal.Phy.Tracking
import EspWifiHal.Phy.PowerTrack
import EspWifiHal.Phy.Pbus
import EspWifiHal.Phy.RxGainTable
import EspWifiHal.Phy.RxSetTable
import EspWifiHal.Phy.Tuning
import EspWifiHal.Phy.TuningRun
import EspWifiHal.Channel
