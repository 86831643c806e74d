import NucKernel.Library.Runs
import NucKernel.Library.Bytes
import NucKernel.Library.Scan
import NucKernel.Library.Ring
import NucKernel.Library.FixedRecords
import NucKernel.Library.Slots
import NucKernel.Library.PairParity
import NucKernel.Library.RegisterBank
import NucKernel.Library.Calendar
import NucKernel.Library.Ranges
import NucKernel.Library.ByteMemory
import NucKernel.Library.ForLoop
import NucKernel.Library.BinarySearch
import NucKernel.Library.SearchTree
import NucKernel.Library.CircularList
import NucKernel.CharDevices.PulseCount
import NucKernel.CharDevices.RemoteInput
import NucKernel.CharDevices.Keyboard.CircBuf
import NucKernel.CharDevices.Keyboard.Records
import NucKernel.CharDevices.Iomem
import NucKernel.CharDevices.Esam
import NucKernel.CharDevices.EsamBounds
import NucKernel.CharDevices.Rn8302
import NucKernel.SmartCard.T1.Block
import NucKernel.SmartCard.T1.Transceive
import NucKernel.SmartCard.T1.Resync
import NucKernel.SmartCard.T1.Retries
import NucKernel.SmartCard.T1.Card
import NucKernel.SmartCard.T1.Safety
import NucKernel.SmartCard.T1.Retransmit
import NucKernel.SmartCard.T1.Bounds
import NucKernel.I2c.Engine
import NucKernel.I2c.Transfer
import NucKernel.I2c.Discipline
import NucKernel.SmartCard.ReadBack
import NucKernel.SmartCard.Atr.Format
import NucKernel.SmartCard.Atr.Parser
import NucKernel.SmartCard.Atr.Session
import NucKernel.SmartCard.Atr.History
import NucKernel.SmartCard.Atr.Receiver
import NucKernel.SmartCard.Atr.Exact
import NucKernel.Spi.Transfer
import NucKernel.Spi.Bus
import NucKernel.Ethernet.TxRing
import NucKernel.Ethernet.InitDesc
import NucKernel.Nand.Correction
import NucKernel.Nand.CorrectionBounds
import NucKernel.Nand.Page
import NucKernel.Nand.OobShadow
import NucKernel.Nand.OobPlacement
import NucKernel.Nand.PageBuffer
import NucKernel.Nand.SoftEcc
import NucKernel.Nand.SoftEccCorrection
import NucKernel.Nand.SoftEccDefinition
import NucKernel.Gpio.Drive
import NucKernel.Gpio.Masking
import NucKernel.Gpio.EdgeDelivery
import NucKernel.Hid.Report
import NucKernel.Hid.ArrayField
import NucKernel.Drbd.IntervalTree
import NucKernel.PersistentData.SpaceMapAccounting
import NucKernel.Rtc.Calendar
import NucKernel.Rtc.Rx8025
import NucKernel.Rtc.Nuc970
import NucKernel.Mtd.BlockCache
import NucKernel.Mtd.Concat
import NucKernel.Mtd.Durability
import NucKernel.Mtd.SpiNor
import NucKernel.Mtd.SpiNorErase
import NucKernel.Block.RamDisk
import NucKernel.Input.Evdev
import NucKernel.Input.Keypad
import NucKernel.Dma.Channel
import NucKernel.Serial.Transmit
import NucKernel.Serial.Divisor
import NucKernel.Jpeg.Scaling
import NucKernel.Tty.FlipBuffer
import NucKernel.Tty.EndOfFile
import NucKernel.Tty.CanonicalQueue
import NucKernel.Tty.EchoBuffer
import NucKernel.Crypto.Aes
import NucKernel.Md.Raid5
import NucKernel.Md.BadBlocks
import NucKernel.Md.BadBlocksQuery
import NucKernel.PersistentData.SpaceMap
import NucKernel.Drbd.Vli
import NucKernel.Drbd.BitmapReceive
import NucKernel.Regmap.CacheSync
import NucKernel.Regmap.RbtreeCache
import NucKernel.Iommu.IovaSafety
import NucKernel.Iommu.IovaComplete
import NucKernel.Drm.MmSafety
import NucKernel.Drm.MmBestMatch
import NucKernel.Drm.MmScan
import NucKernel.Drm.MmUse
import NucKernel.Vhost.IovCursor
